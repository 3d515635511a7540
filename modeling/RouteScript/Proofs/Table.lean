import Mathlib.Data.List.Perm.Basic
import Mathlib.Data.List.Sort
import RouteScript.Table

/-!
# What a table assigns

A table is known by what it assigns: two tables that assign the same values to the same keys are
equal (`ext_get?`).  Every operation has one equation that says what it assigns afterwards, and the
other laws follow from these by extensionality.

* `get?_insert`, `get?_erase`, `get?_mapValues`, `get?_modify`, `get?_filter`: the operations.
* `mem_entries_iff`: the entries are the assignments.
* `OrdSet.contains_ofList`: the members of the set of a list.
-/

namespace RouteScript.Table

universe u v w

variable {α : Type u} {β : Type v} {γ : Type w} [Ord α]

/-! ### Looking up -/

@[simp] theorem get?_empty (k : α) : (empty : Table α β).get? k = none := rfl

theorem contains_eq_isSome (t : Table α β) (k : α) : t.contains k = (t.get? k).isSome := rfl

theorem mem_of_lookup [Std.LawfulEqOrd α] {k : α} {v : β} {entries : List (α × β)}
    (h : lookup k entries = some v) :
    (k, v) ∈ entries := by
  induction entries with
  | nil => simp [lookup] at h
  | cons e entries ih =>
    unfold lookup at h
    split at h
    · rename_i hk
      obtain rfl := Std.LawfulEqCmp.eq_of_compare hk
      cases h
      simp
    · exact List.mem_cons_of_mem _ (ih h)

variable [Std.TransOrd α] [Std.LawfulEqOrd α]

theorem lookup_of_mem {k : α} {v : β} {entries : List (α × β)}
    (hs : entries.Pairwise fun a b => compare a.1 b.1 = .lt) (h : (k, v) ∈ entries) :
    lookup k entries = some v := by
  induction entries with
  | nil => simp at h
  | cons e entries ih =>
    obtain ⟨head, tail⟩ := List.pairwise_cons.1 hs
    rcases List.mem_cons.1 h with rfl | h
    · simp [lookup, Std.ReflCmp.compare_self]
    · have hlt : compare e.1 k = .lt := head _ h
      have hne : compare k e.1 ≠ .eq := by
        intro heq
        rw [Std.OrientedCmp.eq_symm heq] at hlt
        cases hlt
      unfold lookup
      rw [if_neg hne]
      exact ih tail h

/-- The entries of a table are its assignments. -/
theorem mem_entries_iff {t : Table α β} {k : α} {v : β} :
    (k, v) ∈ t.entries ↔ t.get? k = some v :=
  ⟨lookup_of_mem t.ascending, mem_of_lookup⟩

/-- Two tables that assign the same are equal. -/
theorem ext_get? {s t : Table α β} (h : ∀ k, s.get? k = t.get? k) : s = t := by
  have hmem : ∀ e, e ∈ s.entries ↔ e ∈ t.entries := fun e => by
    rw [mem_entries_iff, mem_entries_iff, h]
  have asymm : ∀ {a b : α × β}, compare a.1 b.1 = .lt → ¬ compare b.1 a.1 = .lt :=
    fun h => Std.OrientedCmp.not_lt_of_lt h
  have nodup : ∀ {r : Table α β}, r.entries.Nodup := fun {r} =>
    r.ascending.imp fun {a b} hab => show a ≠ b by
      rintro rfl
      exact asymm hab hab
  exact ext (List.Perm.eq_of_pairwise (fun _ _ _ _ hab hba => absurd hba (asymm hab))
    s.ascending t.ascending ((List.perm_ext_iff_of_nodup nodup nodup).2 hmem))

theorem mem_keys_iff {t : Table α β} {k : α} : k ∈ t.keys ↔ t.contains k = true := by
  rw [contains_eq_isSome, Option.isSome_iff_exists]
  constructor
  · intro h
    obtain ⟨e, he, rfl⟩ := List.mem_map.1 h
    exact ⟨e.2, mem_entries_iff.1 he⟩
  · rintro ⟨v, hv⟩
    exact List.mem_map.2 ⟨(k, v), mem_entries_iff.2 hv, rfl⟩

omit [Std.LawfulEqOrd α] in
/-- No key is listed twice. -/
theorem nodup_keys (t : Table α β) : t.keys.Nodup := by
  refine t.ascending.map _ fun a b h he => ?_
  exact Std.OrientedCmp.not_lt_of_lt h (he ▸ h)

theorem mem_values_iff {t : Table α β} {v : β} : v ∈ t.values ↔ ∃ k, t.get? k = some v := by
  constructor
  · intro h
    obtain ⟨e, he, rfl⟩ := List.mem_map.1 h
    exact ⟨e.1, mem_entries_iff.1 he⟩
  · rintro ⟨k, hk⟩
    exact List.mem_map.2 ⟨(k, v), mem_entries_iff.2 hk, rfl⟩

/-! ### What the operations assign -/

theorem get?_insert [DecidableEq α] (t : Table α β) (k k' : α) (v : β) :
    (t.insert k v).get? k' = if k' = k then some v else t.get? k' := by
  split
  · rename_i h
    rw [h, get?_insert_self]
  · rename_i h
    exact get?_insert_of_ne t v fun hc => h (Std.LawfulEqCmp.eq_of_compare hc)

theorem get?_filter (t : Table α β) (test : α → β → Bool) (k : α) :
    (t.filter test).get? k = (t.get? k).filter (test k) := by
  ext v
  rw [← mem_entries_iff, Option.filter_eq_some_iff, ← mem_entries_iff]
  exact List.mem_filter

/-- What is left of a table if only the keys are tested. -/
theorem get?_filter_keys (t : Table α β) (keep : α → Bool) (k : α) :
    (t.filter fun k' _ => keep k').get? k = if keep k = true then t.get? k else none := by
  rw [get?_filter]
  cases t.get? k with
  | none => simp
  | some v => cases keep k <;> simp

theorem get?_erase [DecidableEq α] (t : Table α β) (k k' : α) :
    (t.erase k).get? k' = if k' = k then none else t.get? k' := by
  rw [erase, get?_filter]
  split
  · rename_i h
    subst h
    cases t.get? k' <;> simp [Std.ReflCmp.compare_self]
  · rename_i h
    have hne : compare k k' ≠ .eq := fun hc => h (Std.LawfulEqCmp.eq_of_compare hc).symm
    cases t.get? k' <;> simp [hne]

theorem get?_mapValues (t : Table α β) (f : α → β → γ) (k : α) :
    (t.mapValues f).get? k = (t.get? k).map (f k) := by
  ext v
  rw [← mem_entries_iff, Option.map_eq_some_iff]
  constructor
  · intro h
    obtain ⟨e, he, heq⟩ := List.mem_map.1 h
    cases heq
    exact ⟨e.2, mem_entries_iff.1 he, rfl⟩
  · rintro ⟨v', hv', rfl⟩
    exact List.mem_map.2 ⟨(k, v'), mem_entries_iff.2 hv', rfl⟩

theorem get?_modify [DecidableEq α] (t : Table α β) (k k' : α) (f : β → β) :
    (t.modify k f).get? k' = (t.get? k').map fun v => if k = k' then f v else v := by
  simp only [modify, get?_mapValues, Std.LawfulEqCmp.compare_eq_iff_eq]

@[simp] theorem contains_insert [DecidableEq α] (t : Table α β) (k k' : α) (v : β) :
    (t.insert k v).contains k' = (decide (k' = k) || t.contains k') := by
  simp only [contains_eq_isSome, get?_insert]
  split <;> simp [*]

@[simp] theorem contains_erase [DecidableEq α] (t : Table α β) (k k' : α) :
    (t.erase k).contains k' = (decide (k' ≠ k) && t.contains k') := by
  simp only [contains_eq_isSome, get?_erase]
  split <;> simp [*]

@[simp] theorem contains_modify [DecidableEq α] (t : Table α β) (k k' : α) (f : β → β) :
    (t.modify k f).contains k' = t.contains k' := by
  simp [contains_eq_isSome, get?_modify]

@[simp] theorem contains_mapValues (t : Table α β) (f : α → β → γ) (k : α) :
    (t.mapValues f).contains k = t.contains k := by
  simp [contains_eq_isSome, get?_mapValues]

@[simp] theorem contains_filter_keys (t : Table α β) (keep : α → Bool) (k : α) :
    (t.filter fun k' _ => keep k').contains k = (keep k && t.contains k) := by
  rw [contains_eq_isSome, get?_filter_keys, contains_eq_isSome]
  cases keep k <;> rfl

/-! ### Laws between operations -/

theorem filter_keys_filter_keys (t : Table α β) (keep keep' : α → Bool) :
    ((t.filter fun k _ => keep k).filter fun k _ => keep' k) =
      t.filter fun k _ => keep' k && keep k := by
  refine ext_get? fun k => ?_
  simp only [get?_filter_keys]
  cases keep k <;> cases keep' k <;> rfl

/-- Tests that agree on the keys of a table leave the same of it. -/
theorem filter_keys_congr {t : Table α β} {keep keep' : α → Bool}
    (h : ∀ k, t.contains k = true → keep k = keep' k) :
    (t.filter fun k _ => keep k) = t.filter fun k _ => keep' k := by
  refine ext_get? fun k => ?_
  rw [get?_filter_keys, get?_filter_keys]
  cases hk : t.get? k with
  | none => simp
  | some v => rw [h k (by rw [contains_eq_isSome, hk]; rfl)]

theorem filter_keys_eq_self {t : Table α β} {keep : α → Bool}
    (h : ∀ k, t.contains k = true → keep k = true) : (t.filter fun k _ => keep k) = t := by
  refine ext_get? fun k => ?_
  rw [get?_filter_keys]
  cases hk : t.get? k with
  | none => simp
  | some v => rw [if_pos (h k (by rw [contains_eq_isSome, hk]; rfl))]

theorem filter_keys_insert [DecidableEq α] (t : Table α β) (keep : α → Bool) (k : α) (v : β) :
    ((t.insert k v).filter fun k' _ => keep k') =
      if keep k = true then (t.filter fun k' _ => keep k').insert k v
      else t.filter fun k' _ => keep k' := by
  refine ext_get? fun k' => ?_
  rw [get?_filter_keys, get?_insert]
  by_cases hk : k' = k
  · subst hk
    cases h : keep k' <;> simp [h, get?_insert, get?_filter_keys]
  · cases keep k <;> simp [hk, get?_insert, get?_filter_keys]

theorem erase_eq_filter_keys [DecidableEq α] (t : Table α β) (k : α) :
    t.erase k = t.filter fun k' _ => decide (k' ≠ k) := by
  refine ext_get? fun k' => ?_
  rw [get?_erase, get?_filter_keys]
  by_cases h : k' = k <;> simp [h]

theorem mapValues_insert [DecidableEq α] (t : Table α β) (f : α → β → γ) (k : α) (v : β) :
    (t.insert k v).mapValues f = (t.mapValues f).insert k (f k v) := by
  refine ext_get? fun k' => ?_
  simp only [get?_mapValues, get?_insert]
  split
  · rename_i h
    rw [h, Option.map_some]
  · rfl

theorem mapValues_erase [DecidableEq α] (t : Table α β) (f : α → β → γ) (k : α) :
    (t.erase k).mapValues f = (t.mapValues f).erase k := by
  refine ext_get? fun k' => ?_
  simp only [get?_mapValues, get?_erase]
  split <;> rfl

end RouteScript.Table

namespace RouteScript.OrdSet

universe u

variable {α : Type u} [Ord α] [Std.TransOrd α] [Std.LawfulEqOrd α] [DecidableEq α]

@[simp] theorem contains_add (s : OrdSet α) (a b : α) :
    (s.add a).contains b = (decide (b = a) || s.contains b) := Table.contains_insert s a b ()

theorem contains_foldl_add (l : List α) (s : OrdSet α) (a : α) :
    (l.foldl add s).contains a = (decide (a ∈ l) || s.contains a) := by
  induction l generalizing s with
  | nil => simp
  | cons b l ih => simp [ih, Bool.or_left_comm, Bool.or_assoc]

/-- The members of the set of a list are those of the list. -/
@[simp] theorem contains_ofList (l : List α) (a : α) :
    (ofList l).contains a = decide (a ∈ l) := by
  rw [ofList, contains_foldl_add]
  simp [Table.contains_eq_isSome]

end RouteScript.OrdSet
