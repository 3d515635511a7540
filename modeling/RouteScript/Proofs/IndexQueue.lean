import Mathlib.Algebra.Order.Floor.Div
import RouteScript.Proofs.Run

/-!
# The index queue loses and repeats nothing

The queue keeps the files that wait in their order and, apart from that, as a set.  The two stay in
step (`InStep`) whatever is asked of the queue, so a file is taken in exactly when it does not wait,
and again once it was handed out.

* `PathSet.contains_insert`, `PathSet.contains_foldl_remove`: the set by what it holds.
* `InStep.extend`, `InStep.nextBatch`: what one request does.
* `InStep.pending_extend`, `InStep.snd_extend`: the files that are taken in, and their number.
* `History.faithful_run`: what the batches, the waiting files and the accepted ones have to do with
  each other.
* `History.pending_replicate`, `Session.indexAll_spec`: how many batches empty the queue.
* `accounting_run`: these together.
-/

namespace RouteScript

namespace Path

variable {p q : Path}

theorem same_iff : p.same q = true ↔ p.components = q.components := beq_iff_eq

end Path

namespace PathSet

variable {s : PathSet} {p q : Path}

theorem contains_iff : s.contains p = true ↔ p.components ∈ s.members.map Path.components := by
  simp [contains, Path.same_iff]

theorem contains_cons {ps : List Path} :
    contains ⟨q :: ps⟩ p = true ↔ p.components = q.components ∨ contains ⟨ps⟩ p = true := by
  simp [contains_iff]

/-- A set gains the path that is inserted and nothing else. -/
theorem contains_insert :
    (s.insert q).1.contains p = true ↔ p.components = q.components ∨ s.contains p = true := by
  unfold insert
  split
  · next h =>
    -- the set has the path already, so it stays as it is
    refine ⟨.inr, fun hp => hp.elim (fun hp => ?_) id⟩
    rw [contains_iff, hp]
    exact contains_iff.1 h
  · exact contains_cons

theorem contains_remove :
    (s.remove q).contains p = true ↔ p.components ≠ q.components ∧ s.contains p = true := by
  simp only [contains_iff, remove, List.mem_map, List.mem_filter, Bool.not_eq_eq_eq_not,
    Bool.not_true, Bool.eq_false_iff, ne_eq, Path.same_iff]
  constructor
  · rintro ⟨r, ⟨hr, hne⟩, hp⟩
    exact ⟨hp ▸ hne, r, hr, hp⟩
  · rintro ⟨hne, r, hr, hp⟩
    exact ⟨r, ⟨hr, hp ▸ hne⟩, hp⟩

/-- A set loses the paths that are removed and no others. -/
theorem contains_foldl_remove (ps : List Path) : (ps.foldl remove s).contains p = true ↔
    p.components ∉ ps.map Path.components ∧ s.contains p = true := by
  induction ps generalizing s with
  | nil => simp
  | cons q ps ih =>
    simp only [List.foldl_cons, ih, contains_remove, List.map_cons, List.mem_cons, not_or, ne_eq]
    tauto

end PathSet

namespace IndexQueue

/-- The set holds the files that wait, and none of them waits twice. -/
structure InStep (q : IndexQueue) : Prop where
  contains_iff : ∀ p, q.queued.contains p = true ↔ p.components ∈ q.pending.map Path.components
  nodup : (q.pending.map Path.components).Nodup

/-- The paths that are taken in when they are offered one after the other: each of them whose file
does not wait at that moment. -/
def accepted (waiting : List Path) : (offered : List Path) → List Path
  | [] => []
  | p :: offered =>
    if p.components ∈ waiting.map Path.components then accepted waiting offered
    else p :: accepted (waiting ++ [p]) offered

variable {q : IndexQueue} {p : Path}

/-! ### One request -/

theorem inStep_start (batchSize : Nat) : (start batchSize).InStep :=
  ⟨fun _ => by simp [start, PathSet.empty, PathSet.contains], List.nodup_nil⟩

/-- A file that waits is not queued again. -/
theorem InStep.push_of_mem (hq : q.InStep) (hp : p.components ∈ q.pending.map Path.components) :
    q.push p = (q, false) := by
  rw [push, PathSet.insert, if_pos ((hq.contains_iff p).2 hp)]

/-- A file that does not wait is queued last, as it is spelled. -/
theorem InStep.push_of_notMem (hq : q.InStep)
    (hp : p.components ∉ q.pending.map Path.components) : q.push p =
      ({ q with pending := q.pending ++ [p], queued := (q.queued.insert p).1 }, true) := by
  have hnew : ¬ q.queued.contains p = true := fun h => hp ((hq.contains_iff p).1 h)
  rw [push, PathSet.insert, if_neg hnew]

theorem InStep.push (hq : q.InStep) (p : Path) : (q.push p).1.InStep := by
  by_cases hp : p.components ∈ q.pending.map Path.components
  · rw [hq.push_of_mem hp]
    exact hq
  · rw [hq.push_of_notMem hp]
    constructor
    · intro r
      rw [PathSet.contains_insert, hq.contains_iff, List.map_append, List.mem_append, or_comm,
        List.map_singleton, List.mem_singleton]
    · rw [List.map_append, List.nodup_append]
      refine ⟨hq.nodup, List.nodup_singleton _, ?_⟩
      rintro c hc _ hd rfl
      exact hp (List.mem_singleton.1 hd ▸ hc)

/-- The count goes on from where it stands. -/
theorem foldl_pushCounted (q : IndexQueue) (n : Nat) (paths : List Path) :
    paths.foldl pushCounted (q, n) = ((q.extend paths).1, n + (q.extend paths).2) := by
  induction paths generalizing q n with
  | nil => rfl
  | cons p paths ih =>
    rw [extend, List.foldl_cons, List.foldl_cons, pushCounted, pushCounted, ih, ih, Nat.zero_add,
      Nat.add_assoc]

theorem extend_cons (q : IndexQueue) (p : Path) (paths : List Path) :
    q.extend (p :: paths) = (((q.push p).1.extend paths).1,
      (q.push p).2.toNat + ((q.push p).1.extend paths).2) := by
  rw [extend, List.foldl_cons, pushCounted, foldl_pushCounted, Nat.zero_add]

theorem InStep.extend (hq : q.InStep) (paths : List Path) : (q.extend paths).1.InStep := by
  induction paths generalizing q with
  | nil => exact hq
  | cons p paths ih =>
    rw [extend_cons]
    exact ih (hq.push p)

theorem batchSize_push (q : IndexQueue) (p : Path) : (q.push p).1.batchSize = q.batchSize := by
  unfold push
  split <;> rfl

theorem batchSize_extend (q : IndexQueue) (paths : List Path) :
    (q.extend paths).1.batchSize = q.batchSize := by
  induction paths generalizing q with
  | nil => rfl
  | cons p paths ih => rw [extend_cons, ih, batchSize_push]

/-- The accepted paths, and no others, wait behind those that waited before. -/
theorem InStep.pending_extend (hq : q.InStep) (paths : List Path) :
    (q.extend paths).1.pending = q.pending ++ accepted q.pending paths := by
  induction paths generalizing q with
  | nil => exact (List.append_nil _).symm
  | cons p paths ih =>
    rw [extend_cons, ih (hq.push p), accepted]
    split
    · next hp => rw [hq.push_of_mem hp]
    · next hp => rw [hq.push_of_notMem hp, List.append_assoc, List.singleton_append]

/-- Their number is the answer. -/
theorem InStep.snd_extend (hq : q.InStep) (paths : List Path) :
    (q.extend paths).2 = (accepted q.pending paths).length := by
  induction paths generalizing q with
  | nil => rfl
  | cons p paths ih =>
    rw [extend_cons, ih (hq.push p), accepted]
    split
    · next hp =>
      rw [hq.push_of_mem hp]
      exact Nat.zero_add _
    · next hp =>
      rw [hq.push_of_notMem hp, List.length_cons, Nat.add_comm]
      rfl

theorem InStep.nextBatch (hq : q.InStep) : q.nextBatch.2.InStep := by
  have hsplit : q.pending.map Path.components =
      (q.pending.take q.batchSize).map Path.components ++
        (q.pending.drop q.batchSize).map Path.components := by
    rw [← List.map_append, List.take_append_drop]
  have hnodup := hq.nodup
  rw [hsplit, List.nodup_append] at hnodup
  constructor
  · intro p
    simp only [IndexQueue.nextBatch]
    rw [PathSet.contains_foldl_remove, hq.contains_iff, hsplit, List.mem_append]
    -- a file of the batch is not among those that wait on
    exact ⟨fun ⟨hno, hp⟩ => hp.resolve_left hno,
      fun hp => ⟨fun hb => hnodup.2.2 _ hb _ hp rfl, .inr hp⟩⟩
  · exact hnodup.2.1

theorem length_nextBatch_le (q : IndexQueue) : q.nextBatch.1.length ≤ q.batchSize :=
  List.length_take_le _ _

theorem nextBatch_eq_nil_iff (q : IndexQueue) : q.nextBatch.1 = [] ↔ q.pending = [] := by
  rw [nextBatch, List.take_eq_nil_iff]
  exact or_iff_right q.batchSize_pos.ne'

/-! ### Sequences of requests -/

/-- What can be asked of a queue. -/
inductive Request where
  | extend (paths : List Path)
  | nextBatch

/-- A queue at work, with the paths that it has accepted and the batches that it has handed out. -/
structure History where
  queue : IndexQueue
  accepted : List Path
  batches : List (List Path)

namespace History

/-- The queue does what it is asked. -/
def serve (h : History) : Request → History
  | .extend paths => { h with
      queue := (h.queue.extend paths).1
      accepted := h.accepted ++ IndexQueue.accepted h.queue.pending paths }
  | .nextBatch => { h with
      queue := h.queue.nextBatch.2
      batches := h.batches ++ [h.queue.nextBatch.1] }

/-- The history of a new queue that is asked one thing after the other. -/
def run (batchSize : Nat) (requests : List Request) : History :=
  requests.foldl serve ⟨.start batchSize, [], []⟩

/-- Each accepted path was handed out or waits, in the order of acceptance, and the batches are
bounded. -/
structure Faithful (batchSize : Nat) (h : History) : Prop where
  inStep : h.queue.InStep
  batchSize_eq : h.queue.batchSize = max 1 batchSize
  flatten_append : h.batches.flatten ++ h.queue.pending = h.accepted
  length_le : ∀ batch ∈ h.batches, batch.length ≤ max 1 batchSize

variable {batchSize : Nat} {h : History}

theorem Faithful.serve (hh : h.Faithful batchSize) (request : Request) :
    (h.serve request).Faithful batchSize := by
  cases request with
  | extend paths =>
    refine ⟨hh.inStep.extend paths, (batchSize_extend _ paths).trans hh.batchSize_eq, ?_,
      hh.length_le⟩
    simp only [History.serve]
    rw [hh.inStep.pending_extend, ← hh.flatten_append, List.append_assoc]
  | nextBatch =>
    refine ⟨hh.inStep.nextBatch, hh.batchSize_eq, ?_, ?_⟩
    · simp only [History.serve, List.flatten_concat, IndexQueue.nextBatch, List.append_assoc,
        List.take_append_drop]
      exact hh.flatten_append
    · intro batch hbatch
      rcases List.mem_append.1 hbatch with hbatch | hbatch
      · exact hh.length_le batch hbatch
      · rw [List.mem_singleton.1 hbatch, ← hh.batchSize_eq]
        exact h.queue.length_nextBatch_le

theorem faithful_run (batchSize : Nat) (requests : List Request) :
    (run batchSize requests).Faithful batchSize := by
  induction requests using List.reverseRecOn with
  | nil => exact ⟨inStep_start batchSize, rfl, rfl, by simp [run]⟩
  | append_singleton requests request ih =>
    rw [run, List.foldl_append]
    exact ih.serve request

/-- Each further batch takes its share from the front. -/
theorem pending_replicate (n : Nat) (h : History) :
    ((List.replicate n Request.nextBatch).foldl History.serve h).queue.pending =
      h.queue.pending.drop (n * h.queue.batchSize) := by
  induction n generalizing h with
  | zero => simp
  | succ n ih =>
    rw [List.replicate_succ, List.foldl_cons, ih]
    simp only [History.serve, IndexQueue.nextBatch, List.drop_drop, Nat.succ_mul, Nat.add_comm]

end History

/-- Files that are not all in one batch need one batch more than those behind it. -/
theorem ceilDiv_eq_succ {n size : Nat} (hn : 0 < n) (hsize : 0 < size) :
    n ⌈/⌉ size = (n - size) ⌈/⌉ size + 1 := by
  rw [Nat.ceilDiv_eq_add_pred_div, Nat.ceilDiv_eq_add_pred_div,
    show n + size - 1 = n - 1 + size by omega, Nat.add_div_right _ hsize]
  rcases Nat.lt_or_ge n size with h | h
  · rw [Nat.div_eq_of_lt (by omega), Nat.div_eq_of_lt (by omega)]
  · rw [show n - size + size - 1 = n - 1 by omega]

end IndexQueue

/-! ### The queue of a session -/

namespace Session

open IndexQueue

variable [Python.Recovery]

theorem queue_load? {s s' : Session} {disk : Disk} {path : Path} {uri : String}
    (h : s.load? disk path uri = some s') : s'.queue = s.queue := by
  unfold load? at h
  split at h
  · cases h
    rfl
  · cases h

theorem queue_foldl_indexFile (disk : Disk) (batch : List Path) (s : Session) (n : Nat) :
    (batch.foldl (indexFile disk) (s, n)).1.queue = s.queue := by
  induction batch generalizing s n with
  | nil => rfl
  | cons path batch ih =>
    rw [List.foldl_cons, indexFile]
    split
    · exact ih s n
    · split
      · next s' hload => rw [ih, queue_load? hload]
      · exact ih s n

theorem queue_indexBatch (s : Session) (disk : Disk) :
    (s.indexBatch disk).1.queue = s.queue.nextBatch.2 := queue_foldl_indexFile disk _ _ _

/-- As many steps as there are files are enough: each batch takes one of them at least. -/
theorem indexBatches_spec (disk : Disk) (steps : Nat) (s : Session)
    (hsteps : s.queue.pending.length ≤ steps) :
    (indexBatches disk steps s).1.queue.pending = [] ∧
      (indexBatches disk steps s).2.pauses.length =
        s.queue.pending.length ⌈/⌉ s.queue.batchSize - 1 := by
  induction steps generalizing s with
  | zero =>
    have hnil := List.length_eq_zero_iff.1 (Nat.le_zero.1 hsteps)
    simp [indexBatches, hnil]
  | succ steps ih =>
    rw [indexBatches]
    have hpos := s.queue.batchSize_pos
    split
    · next hnil => simp [List.isEmpty_iff.1 hnil]
    · next hne =>
      have hlen := List.length_pos_iff.2 fun h => hne (List.isEmpty_iff.2 h)
      have hqueue := queue_indexBatch s disk
      have hrest : (s.indexBatch disk).1.queue.pending.length =
          s.queue.pending.length - s.queue.batchSize := by
        rw [hqueue, IndexQueue.nextBatch, List.length_drop]
      have hsize : (s.indexBatch disk).1.queue.batchSize = s.queue.batchSize := by
        rw [hqueue, IndexQueue.nextBatch]
      obtain ⟨hempty, hpauses⟩ := ih (s.indexBatch disk).1 (by omega)
      refine ⟨hempty, ?_⟩
      -- the batches to come, if any, are one less than those that were to come
      rw [List.length_append, hpauses, hrest, hsize, ceilDiv_eq_succ hlen hpos]
      split
      · next hnil =>
        rw [List.isEmpty_iff, ← List.length_eq_zero_iff, hrest] at hnil
        simp [hnil]
      · next hwait =>
        rw [List.isEmpty_iff, ← List.length_eq_zero_iff, hrest] at hwait
        rw [ceilDiv_eq_succ (Nat.pos_of_ne_zero hwait) hpos, List.length_singleton]
        omega

/-- Reading all files leaves none that waits, with a pause between one batch and the next. -/
theorem indexAll_spec (s : Session) (disk : Disk) :
    (s.indexAll disk).1.queue.pending = [] ∧ (s.indexAll disk).2.pauses.length =
      s.queue.pending.length ⌈/⌉ s.queue.batchSize - 1 :=
  indexBatches_spec disk _ s le_rfl

theorem queue_load (s : Session) (disk : Disk) (path : Path) (uri : String) :
    (s.load disk path uri).queue = s.queue := by
  unfold load
  cases h : s.load? disk path uri with
  | none => rfl
  | some s' => exact queue_load? h

theorem queue_remove (s : Session) (uri : String) : (s.remove uri).queue = s.queue := by
  unfold remove
  split <;> rfl

theorem queue_change {s s' : Session} {uri : String} {edits : List Edit} {version : Int}
    {now : Nat} (h : s.change uri edits version now = .ok s') : s'.queue = s.queue := by
  simp only [change] at h
  cases hstore : s.store.change (Uri.canonical uri) edits version with
  | error e =>
    rw [hstore] at h
    cases h
  | ok result =>
    rw [hstore] at h
    cases h
    rfl

theorem queue_closeDocument (s : Session) (disk : Disk) (uri : String) :
    (s.closeDocument disk uri).queue = s.queue := by
  simp only [closeDocument]
  split
  · split
    · exact queue_load _ _ _ _
    · exact queue_remove _ _
  · exact queue_remove _ _

theorem queue_fileEvent (s : Session) (disk : Disk) (path : Path) (event : FileEvent) :
    (s.fileEvent disk path event).queue = s.queue := by
  simp only [fileEvent]
  split
  · rfl
  · cases event with
    | created => exact queue_load _ _ _ _
    | changed => exact queue_load _ _ _ _
    | deleted => exact queue_remove _ _

/-- An event leaves the queue alone or asks one thing of it. -/
theorem queue_step (s : Session) (e : Event) :
    (s.step e).queue = s.queue ∨
      ∃ request, ∀ h : History, h.queue = s.queue → (h.serve request).queue = (s.step e).queue := by
  cases e with
  | opened uri text version now => exact .inl rfl
  | changed uri edits version now =>
    refine .inl ?_
    simp only [step]
    split
    · next s' h => exact queue_change h
    · rfl
  | closed disk uri => exact .inl (queue_closeDocument s disk uri)
  | file disk path event => exact .inl (queue_fileEvent s disk path event)
  | rootAdded root =>
    refine .inl ?_
    simp only [step, addRoot]
    split <;> rfl
  | rootsQueued disk =>
    refine .inr ⟨.extend (s.workspaceRoots.flatMap (disk.scripts s.excluded)), fun h hq => ?_⟩
    rw [History.serve, hq]
    rfl
  | pathsQueued disk paths =>
    refine .inr ⟨.extend (paths.flatMap (disk.scripts s.excluded)), fun h hq => ?_⟩
    rw [History.serve, hq]
    rfl
  | batchRead disk =>
    refine .inr ⟨.nextBatch, fun h hq => ?_⟩
    rw [History.serve, hq]
    exact (queue_indexBatch s disk).symm
  | published now => exact .inl rfl

/-- The queue of a session is one that was asked one thing after the other. -/
theorem exists_requests (config : Config) (es : List Event) : ∃ requests,
    (History.run config.indexBatchSize requests).queue = (run config es).queue := by
  induction es using List.reverseRecOn with
  | nil => exact ⟨[], rfl⟩
  | append_singleton es e ih =>
    obtain ⟨requests, hqueue⟩ := ih
    rw [run, List.foldl_append]
    rcases queue_step (run config es) e with h | ⟨request, h⟩
    · exact ⟨requests, hqueue.trans h.symm⟩
    · refine ⟨requests ++ [request], ?_⟩
      rw [History.run, List.foldl_append]
      exact h _ hqueue

/-- After every run, no file waits twice, and reading all files takes as many batches as they
fill. -/
theorem indexAll_run (config : Config) (es : List Event) (disk : Disk) :
    ((run config es).queue.pending.map Path.components).Nodup ∧
      ((run config es).indexAll disk).1.queue.pending = [] ∧
      ((run config es).indexAll disk).2.pauses.length =
        (run config es).queue.pending.length ⌈/⌉ max 1 config.indexBatchSize - 1 := by
  obtain ⟨requests, hqueue⟩ := exists_requests config es
  have hfaithful := History.faithful_run config.indexBatchSize requests
  rw [← hfaithful.batchSize_eq, hqueue]
  exact ⟨hqueue ▸ hfaithful.inStep.nodup, indexAll_spec _ disk⟩

end Session

namespace IndexQueue

/-- **The queue loses and repeats nothing.**  Whatever is asked of a queue, the batches and behind
them the files that wait are the accepted paths, in order and as they were spelled.  A path is
accepted if and only if no waiting path names its file, so no two of those that wait do; the answer
counts the accepted paths.  A batch is bounded by the batch size, which is one at least, and empty
only when nothing waits; so the queue is empty after as many further batches as the waiting files
fill, and not before.  A session that reads all files takes as many batches. -/
theorem accounting_run [Python.Recovery] (batchSize : Nat) (requests : List Request) :
    let h := History.run batchSize requests
    h.batches.flatten ++ h.queue.pending = h.accepted ∧
    (h.queue.pending.map Path.components).Nodup ∧
    (∀ paths, (h.queue.extend paths).1.pending =
        h.queue.pending ++ accepted h.queue.pending paths ∧
      (h.queue.extend paths).2 = (accepted h.queue.pending paths).length) ∧
    (∀ batch ∈ h.batches, batch.length ≤ max 1 batchSize) ∧
    (h.queue.nextBatch.1 = [] ↔ h.queue.pending = []) ∧
    (∀ n, (History.run batchSize (requests ++ List.replicate n .nextBatch)).queue.pending = [] ↔
      h.queue.pending.length ⌈/⌉ max 1 batchSize ≤ n) ∧
    ∀ (s : Session) disk,
      let (s', progress) := ({ s with queue := h.queue } : Session).indexAll disk
      s'.queue.pending = [] ∧
        progress.pauses.length = h.queue.pending.length ⌈/⌉ max 1 batchSize - 1 := by
  intro h
  have hfaithful : h.Faithful batchSize := History.faithful_run batchSize requests
  refine ⟨hfaithful.flatten_append, hfaithful.inStep.nodup,
    fun paths => ⟨hfaithful.inStep.pending_extend paths, hfaithful.inStep.snd_extend paths⟩,
    hfaithful.length_le, h.queue.nextBatch_eq_nil_iff, fun n => ?_, fun s disk => ?_⟩
  · have hrun : History.run batchSize (requests ++ List.replicate n .nextBatch) =
        (List.replicate n Request.nextBatch).foldl History.serve h := List.foldl_append ..
    rw [hrun, History.pending_replicate, List.drop_eq_nil_iff, hfaithful.batchSize_eq,
      ceilDiv_le_iff_le_mul (by omega), Nat.mul_comm]
  · rw [← hfaithful.batchSize_eq]
    exact Session.indexAll_spec { s with queue := h.queue } disk

end IndexQueue

end RouteScript
