/-!
# Tables

A table assigns values to keys and lists its entries in ascending order of the keys, so that two
tables with the same assignments are equal.  A set is a table without values.

* `get?_insert_self`, `get?_insert_of_ne`: what a table assigns after an insertion.
-/

namespace RouteScript

universe u v w

variable {α : Type u} {β : Type v} {γ : Type w}

/-- Entries with ascending keys. -/
structure Table (α : Type u) (β : Type v) [Ord α] where
  entries : List (α × β)
  ascending : entries.Pairwise fun a b => compare a.1 b.1 = .lt := by exact List.Pairwise.nil

namespace Table

section Entries

variable [Ord α]

/-- The entries with the value of `k` replaced, or `k` put in its place. -/
def insertEntry (k : α) (v : β) : List (α × β) → List (α × β)
  | [] => [(k, v)]
  | (k', v') :: entries =>
    match compare k k' with
    | .lt => (k, v) :: (k', v') :: entries
    | .eq => (k, v) :: entries
    | .gt => (k', v') :: insertEntry k v entries

/-- The first value whose key compares equal. -/
def lookup (k : α) : List (α × β) → Option β
  | [] => none
  | (k', v') :: entries => if compare k k' = .eq then some v' else lookup k entries

theorem mem_insertEntry {k : α} {v : β} {e : α × β} {entries : List (α × β)}
    (h : e ∈ insertEntry k v entries) : e = (k, v) ∨ e ∈ entries := by
  induction entries with
  | nil => simpa [insertEntry] using h
  | cons e' entries ih =>
    obtain ⟨k', v'⟩ := e'
    unfold insertEntry at h
    split at h <;> simp only [List.mem_cons] at h ⊢
    · exact h
    · rcases h with h | h
      · exact .inl h
      · exact .inr (.inr h)
    · rcases h with h | h
      · exact .inr (.inl h)
      · rcases ih h with h | h
        · exact .inl h
        · exact .inr (.inr h)

theorem pairwise_insertEntry [Std.TransOrd α] (k : α) (v : β) {entries : List (α × β)}
    (h : entries.Pairwise fun a b => compare a.1 b.1 = .lt) :
    (insertEntry k v entries).Pairwise fun a b => compare a.1 b.1 = .lt := by
  induction entries with
  | nil => simp [insertEntry]
  | cons e entries ih =>
    obtain ⟨k', v'⟩ := e
    obtain ⟨head, tail⟩ := List.pairwise_cons.1 h
    unfold insertEntry
    split
    · rename_i hlt
      refine List.pairwise_cons.2 ⟨fun e he => ?_, h⟩
      rcases List.mem_cons.1 he with rfl | he
      · exact hlt
      · exact Std.TransCmp.lt_trans hlt (head e he)
    · rename_i heq
      exact List.pairwise_cons.2
        ⟨fun e he => Std.TransCmp.lt_of_eq_of_lt heq (head e he), tail⟩
    · rename_i hgt
      refine List.pairwise_cons.2 ⟨fun e he => ?_, ih tail⟩
      rcases mem_insertEntry he with rfl | he
      · exact Std.OrientedCmp.lt_of_gt hgt
      · exact head e he

end Entries

variable [Ord α]

/-- The table without entries. -/
def empty : Table α β := ⟨[], .nil⟩

instance : Inhabited (Table α β) := ⟨empty⟩

/-- The value of a key. -/
def get? (t : Table α β) (k : α) : Option β := lookup k t.entries

/-- The key has a value. -/
def contains (t : Table α β) (k : α) : Bool := (t.get? k).isSome

/-- The table with a value assigned to a key. -/
def insert [Std.TransOrd α] (t : Table α β) (k : α) (v : β) : Table α β :=
  ⟨insertEntry k v t.entries, pairwise_insertEntry k v t.ascending⟩

/-- The table restricted to the entries that pass a test. -/
def filter (t : Table α β) (test : α → β → Bool) : Table α β :=
  ⟨t.entries.filter fun e => test e.1 e.2, t.ascending.filter _⟩

/-- The table without the key. -/
def erase (t : Table α β) (k : α) : Table α β := t.filter fun k' _ => compare k k' != .eq

/-- The table with every value changed. -/
def mapValues (t : Table α β) (f : α → β → γ) : Table α γ :=
  ⟨t.entries.map fun e => (e.1, f e.1 e.2), List.pairwise_map.2 t.ascending⟩

/-- The table with the value of a key changed, if it has one. -/
def modify (t : Table α β) (k : α) (f : β → β) : Table α β :=
  t.mapValues fun k' v => if compare k k' = .eq then f v else v

/-- The keys, in ascending order. -/
def keys (t : Table α β) : List α := t.entries.map (·.1)

/-- The values, in the order of their keys. -/
def values (t : Table α β) : List β := t.entries.map (·.2)

/-- The number of entries. -/
def size (t : Table α β) : Nat := t.entries.length

/-- The table has no entries. -/
def isEmpty (t : Table α β) : Bool := t.entries.isEmpty

theorem ext {s t : Table α β} (h : s.entries = t.entries) : s = t := by
  cases s; cases t; cases h; rfl

theorem lookup_insertEntry_self [Std.ReflOrd α] (k : α) (v : β) (entries : List (α × β)) :
    lookup k (insertEntry k v entries) = some v := by
  induction entries with
  | nil => simp [insertEntry, lookup, Std.ReflCmp.compare_self]
  | cons e entries ih =>
    obtain ⟨k', v'⟩ := e
    unfold insertEntry
    split
    · simp [lookup, Std.ReflCmp.compare_self]
    · simp [lookup, Std.ReflCmp.compare_self]
    · rename_i h
      simp [lookup, h, ih]

theorem lookup_insertEntry_of_ne [Std.TransOrd α] {k k' : α} (v : β) (entries : List (α × β))
    (h : compare k' k ≠ .eq) : lookup k' (insertEntry k v entries) = lookup k' entries := by
  induction entries with
  | nil => simp [insertEntry, lookup, h]
  | cons e entries ih =>
    obtain ⟨k'', v''⟩ := e
    unfold insertEntry
    split
    · simp [lookup, h]
    · rename_i heq
      have : compare k' k'' ≠ .eq := fun hk =>
        h (Std.TransCmp.eq_trans hk (Std.OrientedCmp.eq_symm heq))
      simp [lookup, h, this]
    · simp [lookup, ih]

theorem get?_insert_self [Std.TransOrd α] (t : Table α β) (k : α) (v : β) :
    (t.insert k v).get? k = some v := lookup_insertEntry_self k v t.entries

theorem get?_insert_of_ne [Std.TransOrd α] (t : Table α β) {k k' : α} (v : β)
    (h : compare k' k ≠ .eq) : (t.insert k v).get? k' = t.get? k' :=
  lookup_insertEntry_of_ne v t.entries h

end Table

/-- A finite set, listed in ascending order. -/
abbrev OrdSet (α : Type u) [Ord α] := Table α Unit

namespace OrdSet

variable [Ord α] [Std.TransOrd α]

/-- The set with one more member. -/
def add (s : OrdSet α) (a : α) : OrdSet α := s.insert a ()

/-- The set of the members of a list. -/
def ofList (l : List α) : OrdSet α := l.foldl add Table.empty

end OrdSet

end RouteScript
