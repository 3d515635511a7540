import RouteScript.Path

/-!
# The index queue

Files wait to be read and are handed out in batches.  A file that waits already is not queued
again, however its path is spelled.  The files that wait are kept twice: in their order, and as a
set that is asked whether a file is among them.
-/

namespace RouteScript

/-- A set of paths; a path is in it under each of its spellings. -/
structure PathSet where
  members : List Path

namespace PathSet

/-- No paths. -/
def empty : PathSet := ⟨[]⟩

/-- The set has the path, under this or another spelling. -/
def contains (s : PathSet) (p : Path) : Bool := s.members.any (·.same p)

/-- The set with one more path, and whether that path is new to it. -/
def insert (s : PathSet) (p : Path) : PathSet × Bool :=
  if s.contains p then (s, false) else (⟨p :: s.members⟩, true)

/-- The set without a path. -/
def remove (s : PathSet) (p : Path) : PathSet := ⟨s.members.filter fun q => !q.same p⟩

end PathSet

/-- The files that wait, the first one in front, and the same files as a set. -/
structure IndexQueue where
  pending : List Path
  queued : PathSet
  batchSize : Nat
  batchSize_pos : 0 < batchSize := by omega

namespace IndexQueue

/-- Nothing waits; a batch has at least one file. -/
def start (batchSize : Nat) : IndexQueue := ⟨[], .empty, max 1 batchSize, by omega⟩

/-- The queue with one more file, unless it waits already, and whether it was added. -/
def push (q : IndexQueue) (p : Path) : IndexQueue × Bool :=
  match q.queued.insert p with
  | (queued, true) => ({ q with pending := q.pending ++ [p], queued }, true)
  | (_, false) => (q, false)

/-- Adds a file; the number counts the files that have been added. -/
def pushCounted (state : IndexQueue × Nat) (p : Path) : IndexQueue × Nat :=
  let (q, added) := state.1.push p
  (q, state.2 + added.toNat)

/-- The queue with more files, one after the other, and how many of them were added. -/
def extend (q : IndexQueue) (paths : List Path) : IndexQueue × Nat := paths.foldl pushCounted (q, 0)

/-- The next batch and the queue behind it. -/
def nextBatch (q : IndexQueue) : List Path × IndexQueue :=
  let batch := q.pending.take q.batchSize
  (batch, { q with
    pending := q.pending.drop q.batchSize
    queued := batch.foldl PathSet.remove q.queued })

end IndexQueue

end RouteScript
