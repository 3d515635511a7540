import RouteScript.Workspace.VariableIndex
import Mathlib.Data.List.Induction
import Mathlib.Data.List.Sort

/-!
# The variable index against the list of its occurrences

The index is filled by one insertion after the other, each at a place found by halving.  Halving is
right where the occurrences are in order, and an insertion at the right place keeps them so.  Both
orders of the index are functions of the list it was filled from:

* `partitionPoint_eq`: halving finds the first element that does not pass a test.
* `byPosition_ofList`: the occurrences by position are the stable sort of the list by starts.
* `findAt?_ofList_eq_some_iff`, `findAt?_ofList_of_disjoint`: what is found at an offset.
* `withKey_ofList`, `isSome_firstWrite?_ofList`: the occurrences of a variable are those of the list.
* `mem_keys_ofList`, `pairwise_keys_ofList`: the variables are those of the list, as first seen.
* `index_faithful`: all of this for every list of occurrences.
-/

namespace RouteScript.VariableIndex

/-! ### Halving -/

section Halving

variable {α : Type} {test : α → Bool} {l : List α} {half : Nat} {x : α}

/-- Where an element passes the test, so do those in front of it. -/
theorem findIdx_of_passes (h : l.Pairwise fun a b => test b = true → test a = true)
    (hx : l[half]? = some x) (ht : test x = true) :
    l.findIdx (fun a => !test a) = half + (l.drop half).findIdx (fun a => !test a) := by
  obtain ⟨hlt, rfl⟩ := List.getElem?_eq_some_iff.1 hx
  rw [← List.take_append_drop half l, List.pairwise_append] at h
  have hmid : l[half] ∈ l.drop half := by
    rw [List.drop_eq_getElem_cons hlt]
    exact List.mem_cons_self
  have hfront : (l.take half).findIdx (fun a => !test a) = (l.take half).length := by
    refine List.findIdx_eq_length.2 fun a ha => ?_
    rw [h.2.2 a ha l[half] hmid ht, Bool.not_true]
  conv_lhs => rw [← List.take_append_drop half l]
  rw [List.findIdx_append, hfront, if_neg (Nat.lt_irrefl _), List.length_take,
    Nat.min_eq_left hlt.le, Nat.add_comm]

/-- Where an element does not pass the test, those behind it need not be asked. -/
theorem findIdx_of_fails {n : Nat} (hx : l[half]? = some x) (ht : test x = false) (hn : half ≤ n) :
    l.findIdx (fun a => !test a) = (l.take n).findIdx (fun a => !test a) := by
  obtain ⟨hlt, rfl⟩ := List.getElem?_eq_some_iff.1 hx
  have hle : l.findIdx (fun a => !test a) ≤ half := by
    refine Nat.le_of_not_lt fun h => ?_
    have := List.not_of_lt_findIdx h
    simp [ht] at this
  rw [List.findIdx_take, Nat.min_eq_right (hle.trans hn)]

theorem two_le_length (hnil : l ≠ []) (hone : ∀ x, l ≠ [x]) : 2 ≤ l.length := by
  have hpos := List.length_pos_iff.2 hnil
  have hne : l.length ≠ 1 := fun h => by
    obtain ⟨x, hx⟩ := List.length_eq_one_iff.1 h
    exact hone x hx
  omega

/-- Halving finds the first element that does not pass the test. -/
theorem partitionFrom_eq {steps : Nat} (h : l.Pairwise fun a b => test b = true → test a = true)
    (hs : l.length ≤ steps + 1) : partitionFrom test steps l = l.findIdx fun a => !test a := by
  fun_induction partitionFrom test steps l with
  | case1 => rfl
  | case2 steps x hx => simp [List.findIdx_cons, hx]
  | case3 steps x hx => simp [List.findIdx_cons, hx]
  | case4 l hnil hone =>
    have := two_le_length hnil hone
    omega
  | case5 steps l hnil hone half hmid ih =>
    have hlong := two_le_length hnil hone
    obtain ⟨x, hx, ht⟩ := (Option.any_eq_true ..).1 hmid
    have hsteps : (l.drop half).length ≤ steps + 1 := by
      rw [List.length_drop]
      omega
    rw [findIdx_of_passes h hx ht, ih (h.sublist (List.drop_sublist half l)) hsteps]
  | case6 steps l hnil hone half hmid ih =>
    have hlong := two_le_length hnil hone
    have hhalf : half < l.length := by omega
    have hx : l[half]? = some l[half] := List.getElem?_eq_getElem hhalf
    have ht : test l[half] = false := by simpa [hx] using hmid
    have hsteps : (l.take (l.length - half)).length ≤ steps + 1 := by
      rw [List.length_take]
      omega
    have hkept : half ≤ l.length - half := by omega
    rw [findIdx_of_fails hx ht hkept, ih (h.sublist (List.take_sublist ..)) hsteps]

/-- Where the elements that pass a test come first, the partition point is the place of the first one
that does not. -/
theorem partitionPoint_eq (h : l.Pairwise fun a b => test b = true → test a = true) :
    partitionPoint test l = l.findIdx fun a => !test a :=
  partitionFrom_eq h (Nat.le_succ _)

end Halving

/-- The first occurrence starts no later than the second. -/
def startsNoLater (a b : Occurrence) : Bool := a.span.start ≤ b.span.start

theorem startsNoLater_trans (a b c : Occurrence) (hab : startsNoLater a b = true)
    (hbc : startsNoLater b c = true) : startsNoLater a c = true := by
  simp only [startsNoLater, decide_eq_true_eq] at *
  omega

theorem startsNoLater_total (a b : Occurrence) :
    (startsNoLater a b || startsNoLater b a) = true := by
  simp only [startsNoLater, Bool.or_eq_true, decide_eq_true_eq]
  omega

/-! ### By position -/

/-- The occurrences with `o` behind those that start no later, passing over them one by one. -/
def insertBehind (o : Occurrence) : List Occurrence → List Occurrence
  | [] => [o]
  | x :: xs => if x.span.start ≤ o.span.start then x :: insertBehind o xs else o :: x :: xs

theorem mem_insertBehind {o x : Occurrence} {l : List Occurrence} :
    x ∈ insertBehind o l ↔ x = o ∨ x ∈ l := by
  induction l with
  | nil => simp [insertBehind]
  | cons y l ih =>
    rw [insertBehind]
    split
    · rw [List.mem_cons, ih, List.mem_cons]
      exact or_left_comm
    · exact List.mem_cons

/-- Insertion at the right place keeps the occurrences in order. -/
theorem pairwise_insertBehind {o : Occurrence} {l : List Occurrence}
    (h : l.Pairwise fun a b => startsNoLater a b = true) :
    (insertBehind o l).Pairwise fun a b => startsNoLater a b = true := by
  induction l with
  | nil => exact List.pairwise_singleton ..
  | cons x l ih =>
    obtain ⟨hx, hl⟩ := List.pairwise_cons.1 h
    rw [insertBehind]
    split
    · rename_i hxo
      refine List.pairwise_cons.2 ⟨fun y hy => ?_, ih hl⟩
      rcases mem_insertBehind.1 hy with rfl | hy
      · exact decide_eq_true hxo
      · exact hx y hy
    · rename_i hxo
      have hox : startsNoLater o x = true := decide_eq_true (by omega)
      refine List.pairwise_cons.2 ⟨fun y hy => ?_, h⟩
      rcases List.mem_cons.1 hy with rfl | hy
      · exact hox
      · exact startsNoLater_trans o x y hox (hx y hy)

/-- Those that start no later than an offset come first. -/
theorem startsNoLater_first {l : List Occurrence}
    (h : l.Pairwise fun a b => startsNoLater a b = true) (offset : Nat) :
    l.Pairwise fun a b => decide (b.span.start ≤ offset) = true →
      decide (a.span.start ≤ offset) = true := by
  refine h.imp fun {a b} hab hb => ?_
  simp only [startsNoLater, decide_eq_true_eq] at hab hb ⊢
  omega

/-- In a list that is in order, the place that halving finds is behind those that start no later. -/
theorem insertByStart_eq {o : Occurrence} {l : List Occurrence}
    (h : l.Pairwise fun a b => startsNoLater a b = true) : insertByStart o l = insertBehind o l := by
  rw [insertByStart, partitionPoint_eq (startsNoLater_first h _)]
  clear h
  induction l with
  | nil => rfl
  | cons x l ih =>
    by_cases hx : x.span.start ≤ o.span.start
    · simp [List.findIdx_cons, insertBehind, hx, ← ih]
    · simp [List.findIdx_cons, insertBehind, hx]

/-- The occurrences with `o` in front of those that start no earlier. -/
def insertInFront (o : Occurrence) : List Occurrence → List Occurrence :=
  List.orderedInsert (fun a b => startsNoLater a b = true) o

/-- Insertion behind equals and insertion in front of equals do not disturb each other. -/
theorem insertBehind_insertInFront (o a : Occurrence) (l : List Occurrence) :
    insertBehind o (insertInFront a l) = insertInFront a (insertBehind o l) := by
  induction l with
  | nil =>
    simp only [insertInFront, List.orderedInsert_nil, insertBehind, List.orderedInsert_cons,
      startsNoLater, decide_eq_true_eq]
  | cons x l ih =>
    simp only [insertInFront, startsNoLater, decide_eq_true_eq] at ih ⊢
    by_cases hax : a.span.start ≤ x.span.start
    · by_cases hao : a.span.start ≤ o.span.start
      · by_cases hxo : x.span.start ≤ o.span.start <;>
          simp [List.orderedInsert_cons, insertBehind, hax, hao, hxo]
      · have hxo : ¬ x.span.start ≤ o.span.start := by omega
        simp [List.orderedInsert_cons, insertBehind, hax, hao, hxo]
    · by_cases hxo : x.span.start ≤ o.span.start
      · simp [List.orderedInsert_cons, insertBehind, hax, hxo, ih]
      · have hao : ¬ a.span.start ≤ o.span.start := by omega
        simp [List.orderedInsert_cons, insertBehind, hax, hao, hxo]

theorem foldl_insertBehind_insertInFront (os : List Occurrence) (a : Occurrence)
    (l : List Occurrence) :
    os.foldl (fun l o => insertBehind o l) (insertInFront a l) =
      insertInFront a (os.foldl (fun l o => insertBehind o l) l) := by
  induction os generalizing l with
  | nil => rfl
  | cons o os ih => rw [List.foldl_cons, List.foldl_cons, insertBehind_insertInFront, ih]

/-- From an index that is in order on, all insertions are at the right places. -/
theorem byPosition_foldl_add (os : List Occurrence) {index : VariableIndex}
    (h : index.byPosition.Pairwise fun a b => startsNoLater a b = true) :
    (os.foldl add index).byPosition =
      os.foldl (fun l o => insertBehind o l) index.byPosition := by
  induction os generalizing index with
  | nil => rfl
  | cons o os ih =>
    have hadd : (index.add o).byPosition = insertBehind o index.byPosition := insertByStart_eq h
    rw [List.foldl_cons, ih (by rw [hadd]; exact pairwise_insertBehind h), hadd, List.foldl_cons]

/-- An occurrence goes behind those that start earlier and in front of the rest. -/
theorem insertInFront_append {o : Occurrence} {l₁ l₂ : List Occurrence}
    (h₁ : ∀ x ∈ l₁, startsNoLater o x = false) (h₂ : ∀ x ∈ l₂, startsNoLater o x = true) :
    insertInFront o (l₁ ++ l₂) = l₁ ++ o :: l₂ := by
  unfold insertInFront
  induction l₁ with
  | nil =>
    cases l₂ with
    | nil => rfl
    | cons x l₂ => exact if_pos (h₂ x List.mem_cons_self)
  | cons x l₁ ih =>
    have hx : ¬ startsNoLater o x = true := by simp [h₁ x List.mem_cons_self]
    rw [List.cons_append, List.orderedInsert_cons, if_neg hx,
      ih fun y hy => h₁ y (List.mem_cons_of_mem x hy), List.cons_append]

/-- The stable sort puts the first occurrence in front of its equals. -/
theorem mergeSort_cons_eq (o : Occurrence) (os : List Occurrence) :
    (o :: os).mergeSort startsNoLater = insertInFront o (os.mergeSort startsNoLater) := by
  obtain ⟨l₁, l₂, hcons, hos, hl₁⟩ :=
    List.mergeSort_cons startsNoLater_trans startsNoLater_total o os
  have hsorted := List.pairwise_mergeSort startsNoLater_trans startsNoLater_total (o :: os)
  rw [hcons, List.pairwise_append, List.pairwise_cons] at hsorted
  rw [hcons, hos, insertInFront_append]
  · exact fun x hx => by simpa using hl₁ x hx
  · exact hsorted.2.1.1

/-- The occurrences by position are the stable sort by starts of those that were added. -/
theorem byPosition_ofList (os : List Occurrence) :
    (ofList os).byPosition = os.mergeSort startsNoLater := by
  rw [ofList, byPosition_foldl_add os .nil]
  induction os with
  | nil => rw [List.mergeSort_nil]; rfl
  | cons o os ih =>
    have hone : insertBehind o empty.byPosition = insertInFront o empty.byPosition := rfl
    rw [List.foldl_cons, hone, foldl_insertBehind_insertInFront, ih, mergeSort_cons_eq]

theorem pairwise_byPosition_ofList (os : List Occurrence) :
    (ofList os).byPosition.Pairwise fun a b => startsNoLater a b = true := by
  rw [byPosition_ofList]
  exact List.pairwise_mergeSort startsNoLater_trans startsNoLater_total os

theorem perm_byPosition_ofList (os : List Occurrence) : (ofList os).byPosition.Perm os := by
  rw [byPosition_ofList]
  exact List.mergeSort_perm os startsNoLater

theorem mem_byPosition_ofList {os : List Occurrence} {o : Occurrence} :
    o ∈ (ofList os).byPosition ↔ o ∈ os := by
  rw [byPosition_ofList, List.mem_mergeSort]

/-- Occurrences that start at one place are in the order in which they were added. -/
theorem filter_byPosition_ofList (os : List Occurrence) (start : Nat) :
    (ofList os).byPosition.filter (·.span.start == start) =
      os.filter (·.span.start == start) := by
  have htied : (os.filter (·.span.start == start)).Pairwise
      fun a b => startsNoLater a b = true := by
    refine List.pairwise_of_forall_mem_list fun a ha b hb => ?_
    have hastart := beq_iff_eq.1 (List.mem_filter.1 ha).2
    have hbstart := beq_iff_eq.1 (List.mem_filter.1 hb).2
    exact decide_eq_true (by omega)
  have hsub := (List.sublist_mergeSort startsNoLater_trans startsNoLater_total htied
    List.filter_sublist).filter (·.span.start == start)
  rw [List.filter_filter, ← byPosition_ofList] at hsub
  simp only [Bool.and_self] at hsub
  exact (hsub.eq_of_length ((perm_byPosition_ofList os).filter _).length_eq.symm).symm

/-! ### At an offset -/

theorem mem_of_findAt? {index : VariableIndex} {offset : Nat} {o : Occurrence}
    (h : index.findAt? offset = some o) : o ∈ index.byPosition ∧ o.span.Contains offset := by
  unfold findAt? at h
  split at h
  · cases h
  · obtain ⟨hget, hin⟩ := Option.filter_eq_some_iff.1 h
    exact ⟨List.mem_of_getElem? hget, of_decide_eq_true hin⟩

/-- If each of the occurrences ends in front of the next one, the one that contains an offset is the
one found there. -/
theorem findAt?_eq_some_iff_of_apart {index : VariableIndex}
    (hne : ∀ o ∈ index.byPosition, o.span.start < o.span.stop)
    (hapart : index.byPosition.Pairwise fun a b => a.span.stop ≤ b.span.start) {offset : Nat}
    {o : Occurrence} :
    index.findAt? offset = some o ↔ o ∈ index.byPosition ∧ o.span.Contains offset := by
  refine ⟨mem_of_findAt?, fun ⟨ho, hin⟩ => ?_⟩
  have hsorted : index.byPosition.Pairwise fun a b => startsNoLater a b = true := by
    refine hapart.imp_of_mem fun {a b} ha _ hab => ?_
    have := hne a ha
    exact decide_eq_true (by omega)
  unfold findAt?
  rw [partitionPoint_eq (startsNoLater_first hsorted offset)]
  obtain ⟨before, after, hsplit⟩ := List.append_of_mem ho
  rw [hsplit] at hne hapart ⊢
  obtain ⟨-, hafter, hbefore⟩ := List.pairwise_append.1 hapart
  -- all up to this one start no later than the offset, and the next one behind it
  have hfirst : ∀ x ∈ before ++ [o], (!decide (x.span.start ≤ offset)) = false := by
    intro x hx
    have hstart : x.span.start ≤ offset := by
      rcases List.mem_append.1 hx with hx | hx
      · have := hne x (List.mem_append_left _ hx)
        have := hbefore x hx o List.mem_cons_self
        have := hin.1
        omega
      · rw [List.mem_singleton.1 hx]
        exact hin.1
    simpa using hstart
  have hnext : after.findIdx (fun x => !decide (x.span.start ≤ offset)) = 0 := by
    cases after with
    | nil => rfl
    | cons x after =>
      have := List.rel_of_pairwise_cons hafter List.mem_cons_self
      have := hin.2
      rw [List.findIdx_cons, show (!decide (x.span.start ≤ offset)) = true by simp; omega]
      rfl
  rw [List.append_cons, List.findIdx_append, List.findIdx_eq_length.2 hfirst,
    if_neg (Nat.lt_irrefl _), hnext, Nat.zero_add, List.length_append, List.length_singleton]
  simp only [List.append_assoc, List.singleton_append, List.getElem?_append_right (Nat.le_refl _),
    Nat.sub_self, List.getElem?_cons_zero]
  exact Option.filter_eq_some_iff.2 ⟨rfl, decide_eq_true hin⟩

/-- So it is where the occurrences were added in the order in which they stand. -/
theorem findAt?_ofList_eq_some_iff {os : List Occurrence}
    (hne : ∀ o ∈ os, o.span.start < o.span.stop)
    (hapart : os.Pairwise fun a b => a.span.stop ≤ b.span.start) {offset : Nat} {o : Occurrence} :
    (ofList os).findAt? offset = some o ↔ o ∈ os ∧ o.span.Contains offset := by
  have hsorted : (ofList os).byPosition = os := by
    rw [byPosition_ofList]
    refine List.mergeSort_of_pairwise (hapart.imp_of_mem fun {a b} ha _ hab => ?_)
    have := hne a ha
    exact decide_eq_true (by omega)
  rw [findAt?_eq_some_iff_of_apart (by rwa [hsorted]) (by rwa [hsorted]), hsorted]

/-- So it is in whatever order they were added, if no two have a byte in common. -/
theorem findAt?_ofList_of_disjoint {os : List Occurrence}
    (hne : ∀ o ∈ os, o.span.start < o.span.stop)
    (hdisjoint : os.Pairwise fun a b => ∀ offset, ¬ (a.span.Contains offset ∧ b.span.Contains offset))
    {offset : Nat} {o : Occurrence} :
    (ofList os).findAt? offset = some o ↔ o ∈ os ∧ o.span.Contains offset := by
  have hne' : ∀ o ∈ (ofList os).byPosition, o.span.start < o.span.stop :=
    fun o ho => hne o (mem_byPosition_ofList.1 ho)
  have hdisjoint' := (perm_byPosition_ofList os).symm.pairwise hdisjoint
    fun hab offset ⟨hb, ha⟩ => hab offset ⟨ha, hb⟩
  have hapart : (ofList os).byPosition.Pairwise fun a b => a.span.stop ≤ b.span.start := by
    refine ((pairwise_byPosition_ofList os).and hdisjoint').imp_of_mem ?_
    intro a b _ hb ⟨hab, hnone⟩
    refine Nat.le_of_not_lt fun hlt => hnone b.span.start ⟨⟨of_decide_eq_true hab, hlt⟩, ?_⟩
    exact ⟨Nat.le_refl _, hne' b hb⟩
  rw [findAt?_eq_some_iff_of_apart hne' hapart, mem_byPosition_ofList]

/-! ### By identity -/

theorem find?_insertByKey (o : Occurrence) (key : String)
    (groups : List (String × List Occurrence)) :
    (((insertByKey o groups).find? (·.1 == key)).map (·.2)).getD [] =
      ((groups.find? (·.1 == key)).map (·.2)).getD [] ++ [o].filter (·.key == key) := by
  induction groups with
  | nil => by_cases h : o.key = key <;> simp [insertByKey, h]
  | cons group groups ih =>
    obtain ⟨k, os⟩ := group
    rw [insertByKey]
    by_cases ho : k = o.key
    · rw [if_pos ho]
      by_cases hk : k = key <;> simp [← ho, hk]
    · rw [if_neg ho]
      by_cases hk : k = key
      · have hne : ¬ o.key = key := fun h => ho (hk.trans h.symm)
        simp [hk, hne]
      · rw [List.find?_cons_of_neg (by simpa using hk), List.find?_cons_of_neg (by simpa using hk)]
        exact ih

theorem withKey_foldl_add (os : List Occurrence) (index : VariableIndex) (key : String) :
    (os.foldl add index).withKey key = index.withKey key ++ os.filter (·.key == key) := by
  induction os generalizing index with
  | nil => rw [List.foldl_nil, List.filter_nil, List.append_nil]
  | cons o os ih =>
    have hadd : (index.add o).withKey key = index.withKey key ++ [o].filter (·.key == key) :=
      find?_insertByKey o key index.byKey
    rw [List.foldl_cons, ih, hadd, List.append_assoc, ← List.filter_append, List.singleton_append]

/-- The occurrences of a variable are those that were added, in the order in which they were. -/
theorem withKey_ofList (os : List Occurrence) (key : String) :
    (ofList os).withKey key = os.filter (·.key == key) :=
  withKey_foldl_add os empty key

theorem isSome_firstWrite?_ofList {os : List Occurrence} {key : String} :
    ((ofList os).firstWrite? key).isSome = true ↔
      ∃ o ∈ os, o.access = .write ∧ o.key = key := by
  rw [firstWrite?, writes, withKey_ofList, List.isSome_head?, Ne, List.filter_eq_nil_iff]
  simp [Occurrence.isWrite, and_comm]

theorem keys_add (index : VariableIndex) (o : Occurrence) :
    (index.add o).keys = if o.key ∈ index.keys then index.keys else index.keys ++ [o.key] := by
  obtain ⟨byPosition, groups⟩ := index
  show (insertByKey o groups).map (·.1) =
    if o.key ∈ groups.map (·.1) then groups.map (·.1) else groups.map (·.1) ++ [o.key]
  induction groups with
  | nil => simp [insertByKey]
  | cons group groups ih =>
    rw [insertByKey]
    by_cases hk : group.1 = o.key
    · simp [hk]
    · rw [if_neg hk, List.map_cons, ih, List.map_cons]
      by_cases hmem : o.key ∈ groups.map (·.1)
      · rw [if_pos hmem, if_pos (List.mem_cons_of_mem _ hmem)]
      · rw [if_neg hmem, if_neg, List.cons_append]
        rw [List.mem_cons, not_or]
        exact ⟨Ne.symm hk, hmem⟩

theorem ofList_concat (os : List Occurrence) (o : Occurrence) :
    ofList (os ++ [o]) = (ofList os).add o := by
  rw [ofList, List.foldl_append, List.foldl_cons, List.foldl_nil, ofList]

/-- The variables are those of the occurrences that were added. -/
theorem mem_keys_ofList {os : List Occurrence} {key : String} :
    key ∈ (ofList os).keys ↔ key ∈ os.map Occurrence.key := by
  induction os using List.reverseRecOn with
  | nil => exact Iff.rfl
  | append_singleton os o ih =>
    rw [ofList_concat, keys_add, List.map_append, List.mem_append, ← ih]
    split
    · rename_i hmem
      simp only [List.map_singleton, List.mem_singleton, iff_self_or]
      rintro rfl
      exact hmem
    · rw [List.mem_append, List.map_singleton]

/-- The variables are in the order in which they were first seen. -/
theorem pairwise_keys_ofList (os : List Occurrence) : (ofList os).keys.Pairwise fun a b =>
    (os.map Occurrence.key).idxOf a < (os.map Occurrence.key).idxOf b := by
  induction os using List.reverseRecOn with
  | nil => exact .nil
  | append_singleton os o ih =>
    have hseen : ∀ key ∈ (ofList os).keys, ((os ++ [o]).map Occurrence.key).idxOf key =
        (os.map Occurrence.key).idxOf key := fun key hkey => by
      rw [List.map_append, List.idxOf_append_of_mem (mem_keys_ofList.1 hkey)]
    have hold : (ofList os).keys.Pairwise fun a b => ((os ++ [o]).map Occurrence.key).idxOf a <
        ((os ++ [o]).map Occurrence.key).idxOf b :=
      ih.imp_of_mem fun {a b} ha hb hab => by rwa [hseen a ha, hseen b hb]
    rw [ofList_concat, keys_add]
    split
    · exact hold
    · rename_i hnew
      refine List.pairwise_append.2 ⟨hold, List.pairwise_singleton .., fun a ha b hb => ?_⟩
      obtain rfl := List.mem_singleton.1 hb
      -- the new one is behind all that were there before
      rw [hseen a ha, List.map_append, List.idxOf_append_of_notMem (mt mem_keys_ofList.2 hnew)]
      exact Nat.lt_add_right _ (List.idxOf_lt_length_of_mem (mem_keys_ofList.1 ha))

/-! ### The index -/

/-- **The index is faithful.**  However the occurrences were added, one by one from the empty index on:
those by position are the same ones, in the order of their starts, and those of one start in the order
in which they were added.  Those of a variable, its writes and its first write are those that were
added, in that order.  Each variable is listed once, in the order in which they were first seen.  An
index filled from the occurrences by position has the same ones by position.  Where none is empty and no
two have a byte in common, the one that contains an offset is found there, and nothing elsewhere. -/
theorem index_faithful (os : List Occurrence) :
    let index := os.foldl add empty
    (index.byPosition.Perm os ∧
      index.byPosition.Pairwise (fun a b => a.span.start ≤ b.span.start) ∧
      ∀ start, index.byPosition.filter (·.span.start == start) =
        os.filter (·.span.start == start)) ∧
    (∀ key, index.withKey key = os.filter (·.key == key) ∧
      index.writes key = os.filter (fun o => o.key == key && o.isWrite) ∧
      index.firstWrite? key = os.find? fun o => o.key == key && o.isWrite) ∧
    (index.keys.Pairwise (fun a b =>
        (os.map Occurrence.key).idxOf a < (os.map Occurrence.key).idxOf b) ∧
      ∀ key, key ∈ index.keys ↔ key ∈ os.map Occurrence.key) ∧
    (ofList index.byPosition).byPosition = index.byPosition ∧
    ((∀ o ∈ os, o.span.start < o.span.stop) →
      os.Pairwise (fun a b => ∀ offset, ¬ (a.span.Contains offset ∧ b.span.Contains offset)) →
      ∀ offset o, index.findAt? offset = some o ↔ o ∈ os ∧ o.span.Contains offset) := by
  have hsorted := pairwise_byPosition_ofList os
  refine ⟨⟨perm_byPosition_ofList os, hsorted.imp of_decide_eq_true, filter_byPosition_ofList os⟩,
    fun key => ?_, ⟨pairwise_keys_ofList os, fun key => mem_keys_ofList⟩, ?_,
    fun hne hdisjoint offset o => findAt?_ofList_of_disjoint hne hdisjoint⟩
  · have hwrites : (ofList os).writes key = os.filter fun o => o.key == key && o.isWrite := by
      rw [writes, withKey_ofList, List.filter_filter]
      exact List.filter_congr fun o _ => Bool.and_comm ..
    refine ⟨withKey_ofList os key, hwrites, ?_⟩
    rw [← List.head?_filter, ← hwrites]
    rfl
  · rw [byPosition_ofList]
    exact List.mergeSort_of_pairwise hsorted

/-- A write, and then a read that ends where the write starts. -/
def touching : List Occurrence :=
  [⟨⟨"$ru".toList, "ru".toList, none, none, 0⟩, "sets", .write, ⟨7, 10⟩, ⟨⟨0, 7⟩, ⟨0, 10⟩⟩, "route"⟩,
    ⟨⟨"$fu".toList, "fu".toList, none, none, 0⟩, "get", .read, ⟨4, 7⟩, ⟨⟨0, 4⟩, ⟨0, 7⟩⟩, "route"⟩]

/-- Where they meet, the write is found. -/
theorem index_faithful_touching :
    (∀ o ∈ touching, o.span.start < o.span.stop) ∧
      touching.Pairwise (fun a b => ∀ offset, ¬ (a.span.Contains offset ∧ b.span.Contains offset)) ∧
      ((touching.foldl add empty).findAt? 7).map Occurrence.key = some "ru" := by
  have hne : ∀ o ∈ touching, o.span.start < o.span.stop := by decide
  have hdisjoint : touching.Pairwise
      (fun a b => ∀ offset, ¬ (a.span.Contains offset ∧ b.span.Contains offset)) := by
    refine List.pairwise_pair.2 fun offset ⟨ha, hb⟩ => ?_
    exact absurd (Nat.lt_of_le_of_lt ha.1 hb.2) (by decide)
  obtain ⟨-, -, -, -, hfind⟩ := index_faithful touching
  have hfound := (hfind hne hdisjoint 7 _).2 ⟨List.mem_cons_self, by decide⟩
  exact ⟨hne, hdisjoint, by rw [hfound]; rfl⟩

end RouteScript.VariableIndex
