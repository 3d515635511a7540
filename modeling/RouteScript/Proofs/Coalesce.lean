import Mathlib.Logic.ExistsUnique
import RouteScript.Document.Edit

/-!
# Merging spans

The spans of a list, sorted and with those merged that touch, are the same bytes cut into as few
pieces as possible.

* `separated_coalesce`: no merged span touches the next.
* `contains_coalesce`, `encloses_coalesce`: no byte is lost or added, and each span, be it empty,
  lies in one of the merged ones.
* `ends_coalesce`: the ends of merged spans are ends of spans that were given.
* `coalesce_of_perm`, `coalesce_of_separated`: the order of the spans does not matter, and spans
  that do not touch are left as they are.
* `coalesce_canonical`: all of it together.
-/

namespace RouteScript.Span

/-- The spans start one after the other. -/
def Ascending (spans : List Span) : Prop := spans.Pairwise fun a b => a.start ≤ b.start

/-- No span touches the next. -/
def Separated (spans : List Span) : Prop := spans.Pairwise fun a b => a.stop < b.start

theorem startsFirst_iff {a b : Span} :
    startsFirst a b = true ↔ a.start < b.start ∨ a.start = b.start ∧ a.stop ≤ b.stop := by
  simp [startsFirst]

theorem pairwise_mergeSort (spans : List Span) :
    (spans.mergeSort startsFirst).Pairwise fun a b => startsFirst a b = true := by
  refine List.pairwise_mergeSort (fun a b c hab hbc => ?_) (fun a b => ?_) spans
  · rw [startsFirst_iff] at *
    omega
  · rw [Bool.or_eq_true, startsFirst_iff, startsFirst_iff]
    omega

theorem ascending_mergeSort (spans : List Span) : Ascending (spans.mergeSort startsFirst) := by
  refine (pairwise_mergeSort spans).imp fun {a b} h => ?_
  rw [startsFirst_iff] at h
  omega

variable {last : Span} {spans : List Span}

/-- Merging the second span into the first keeps the starts in order. -/
theorem Ascending.merge {s : Span} (h : Ascending (last :: s :: spans)) :
    Ascending (⟨last.start, max last.stop s.stop⟩ :: spans) := by
  unfold Ascending at *
  rw [List.pairwise_cons, List.pairwise_cons] at h
  exact List.pairwise_cons.2 ⟨fun t ht => h.1 t (List.mem_cons_of_mem s ht), h.2.2⟩

theorem start_le_of_mem_mergeInto (h : Ascending (last :: spans)) {r : Span}
    (hr : r ∈ mergeInto last spans) : last.start ≤ r.start := by
  induction spans generalizing last with
  | nil =>
    rw [mergeInto, List.mem_singleton] at hr
    exact Nat.le_of_eq (by rw [hr])
  | cons s spans ih =>
    have hs : last.start ≤ s.start := (List.pairwise_cons.1 h).1 s List.mem_cons_self
    rw [mergeInto] at hr
    split at hr
    · have := ih h.merge hr
      exact this
    · rcases List.mem_cons.1 hr with rfl | hr
      · exact Nat.le_refl _
      · exact Nat.le_trans hs (ih (List.pairwise_cons.1 h).2 hr)

theorem separated_mergeInto (h : Ascending (last :: spans)) :
    Separated (mergeInto last spans) := by
  induction spans generalizing last with
  | nil => exact List.pairwise_singleton ..
  | cons s spans ih =>
    rw [mergeInto]
    split
    · exact ih h.merge
    · have hs := (List.pairwise_cons.1 h).2
      refine List.pairwise_cons.2 ⟨fun r hr => ?_, ih hs⟩
      have := start_le_of_mem_mergeInto hs hr
      omega

theorem contains_mergeInto (h : Ascending (last :: spans)) (i : Nat) :
    (∃ r ∈ mergeInto last spans, r.Contains i) ↔ ∃ s ∈ last :: spans, s.Contains i := by
  induction spans generalizing last with
  | nil => rfl
  | cons s spans ih =>
    have hs : last.start ≤ s.start := (List.pairwise_cons.1 h).1 s List.mem_cons_self
    rw [mergeInto]
    split
    · have hmerged :
          Contains ⟨last.start, max last.stop s.stop⟩ i ↔ last.Contains i ∨ s.Contains i := by
        simp only [Contains]
        omega
      rw [ih h.merge]
      simp only [List.mem_cons, exists_eq_or_imp, hmerged, or_assoc]
    · have ih := ih (List.pairwise_cons.1 h).2
      simp only [List.mem_cons, exists_eq_or_imp] at ih ⊢
      rw [ih]

theorem encloses_mergeInto (h : Ascending (last :: spans)) {s : Span} (hs : s ∈ last :: spans) :
    ∃ r ∈ mergeInto last spans, r.Encloses s := by
  induction spans generalizing last s with
  | nil => exact ⟨s, hs, Nat.le_refl _, Nat.le_refl _⟩
  | cons t spans ih =>
    have ht : last.start ≤ t.start := (List.pairwise_cons.1 h).1 t List.mem_cons_self
    rw [mergeInto]
    split
    · -- both spans lie in the merged one, and that lies in one of the result
      obtain ⟨r, hr, he⟩ := ih h.merge List.mem_cons_self
      simp only [Encloses] at he ⊢
      rcases List.mem_cons.1 hs with rfl | hs
      · exact ⟨r, hr, by omega, by omega⟩
      · rcases List.mem_cons.1 hs with rfl | hs
        · exact ⟨r, hr, by omega, by omega⟩
        · exact ih h.merge (List.mem_cons_of_mem _ hs)
    · rcases List.mem_cons.1 hs with rfl | hs
      · exact ⟨s, List.mem_cons_self, Nat.le_refl _, Nat.le_refl _⟩
      · obtain ⟨r, hr, he⟩ := ih (List.pairwise_cons.1 h).2 hs
        exact ⟨r, List.mem_cons_of_mem _ hr, he⟩

/-- What holds of the ends of all given spans holds of the ends of the merged ones. -/
theorem ends_mergeInto {p q : Nat → Prop} (h : ∀ s ∈ last :: spans, p s.start ∧ q s.stop) :
    ∀ r ∈ mergeInto last spans, p r.start ∧ q r.stop := by
  induction spans generalizing last with
  | nil => exact h
  | cons s spans ih =>
    have hl := h last List.mem_cons_self
    have hs := h s (List.mem_cons_of_mem _ List.mem_cons_self)
    have hr : ∀ r ∈ spans, p r.start ∧ q r.stop := fun r hr =>
      h r (List.mem_cons_of_mem _ (List.mem_cons_of_mem _ hr))
    rw [mergeInto]
    split
    · refine ih (List.forall_mem_cons.2 ⟨⟨hl.1, ?_⟩, hr⟩)
      simp only [Nat.max_def]
      split
      · exact hs.2
      · exact hl.2
    · exact List.forall_mem_cons.2 ⟨hl, ih (List.forall_mem_cons.2 ⟨hs, hr⟩)⟩

theorem le_mergeInto (h : ∀ s ∈ last :: spans, s.start ≤ s.stop) :
    ∀ r ∈ mergeInto last spans, r.start ≤ r.stop := by
  induction spans generalizing last with
  | nil => exact h
  | cons s spans ih =>
    rw [List.forall_mem_cons, List.forall_mem_cons] at h
    obtain ⟨hl, hs, hr⟩ := h
    rw [mergeInto]
    split
    · exact ih (List.forall_mem_cons.2 ⟨Nat.le_trans hl (Nat.le_max_left ..), hr⟩)
    · exact List.forall_mem_cons.2 ⟨hl, ih (List.forall_mem_cons.2 ⟨hs, hr⟩)⟩

/-! ### Spans in any order -/

theorem coalesce_cases (spans : List Span) :
    spans = [] ∧ coalesce spans = [] ∨
      ∃ first rest, Ascending (first :: rest) ∧ coalesce spans = mergeInto first rest ∧
        ∀ s, s ∈ first :: rest ↔ s ∈ spans := by
  have hsorted := ascending_mergeSort spans
  cases hm : spans.mergeSort startsFirst with
  | nil =>
    have hperm := List.mergeSort_perm spans startsFirst
    rw [hm] at hperm
    exact .inl ⟨hperm.symm.eq_nil, by rw [coalesce, hm, merge]⟩
  | cons first rest =>
    refine .inr ⟨first, rest, hm ▸ hsorted, by rw [coalesce, hm, merge], fun s => ?_⟩
    rw [← hm, List.mem_mergeSort]

theorem separated_coalesce (spans : List Span) : Separated (coalesce spans) := by
  rcases coalesce_cases spans with ⟨-, hc⟩ | ⟨first, rest, hsorted, hc, -⟩
  · rw [hc]
    exact .nil
  · rw [hc]
    exact separated_mergeInto hsorted

/-- A byte belongs to a merged span if it belongs to one that was given. -/
theorem contains_coalesce (spans : List Span) (i : Nat) :
    (∃ r ∈ coalesce spans, r.Contains i) ↔ ∃ s ∈ spans, s.Contains i := by
  rcases coalesce_cases spans with ⟨rfl, hc⟩ | ⟨first, rest, hsorted, hc, hm⟩
  · rw [hc]
  · rw [hc, contains_mergeInto hsorted]
    simp only [hm]

theorem encloses_coalesce {s : Span} (hs : s ∈ spans) : ∃ r ∈ coalesce spans, r.Encloses s := by
  rcases coalesce_cases spans with ⟨rfl, -⟩ | ⟨first, rest, hsorted, hc, hm⟩
  · cases hs
  · rw [hc]
    exact encloses_mergeInto hsorted ((hm s).2 hs)

theorem ends_coalesce {p q : Nat → Prop} (h : ∀ s ∈ spans, p s.start ∧ q s.stop) :
    ∀ r ∈ coalesce spans, p r.start ∧ q r.stop := by
  rcases coalesce_cases spans with ⟨-, hc⟩ | ⟨first, rest, -, hc, hm⟩
  · rw [hc]
    exact fun r hr => by cases hr
  · rw [hc]
    exact ends_mergeInto fun s hs => h s ((hm s).1 hs)

/-- Merged spans end no earlier than they start, if the given ones do. -/
theorem le_coalesce (h : ∀ s ∈ spans, s.start ≤ s.stop) :
    ∀ r ∈ coalesce spans, r.start ≤ r.stop := by
  rcases coalesce_cases spans with ⟨-, hc⟩ | ⟨first, rest, -, hc, hm⟩
  · rw [hc]
    exact fun r hr => by cases hr
  · rw [hc]
    exact le_mergeInto fun s hs => h s ((hm s).1 hs)

/-! ### The canonical form -/

/-- Two spans that come first before each other are the same, so sorting forgets the order in which
the spans were given. -/
theorem coalesce_of_perm {spans' : List Span} (h : spans.Perm spans') :
    coalesce spans = coalesce spans' := by
  have hperm : (spans.mergeSort startsFirst).Perm (spans'.mergeSort startsFirst) :=
    ((List.mergeSort_perm spans startsFirst).trans h).trans
      (List.mergeSort_perm spans' startsFirst).symm
  have hsame : spans.mergeSort startsFirst = spans'.mergeSort startsFirst := by
    refine hperm.eq_of_pairwise (fun a b _ _ hab hba => ?_) (pairwise_mergeSort spans)
      (pairwise_mergeSort spans')
    rw [startsFirst_iff] at hab hba
    obtain ⟨start, stop⟩ := a
    obtain ⟨start', stop'⟩ := b
    simp only [mk.injEq] at hab hba ⊢
    omega
  rw [coalesce, coalesce, hsame]

theorem merge_of_separated (h : Separated spans) : merge spans = spans := by
  cases spans with
  | nil => rfl
  | cons last spans =>
    rw [merge]
    induction spans generalizing last with
    | nil => rfl
    | cons s spans ih =>
      obtain ⟨hlast, hrest⟩ := List.pairwise_cons.1 h
      have hs : last.stop < s.start := hlast s List.mem_cons_self
      rw [mergeInto, if_neg (Nat.not_le.2 hs), ih s hrest]

/-- Spans that do not touch are left as they are. -/
theorem coalesce_of_separated (h : Separated spans) (hle : ∀ s ∈ spans, s.start ≤ s.stop) :
    coalesce spans = spans := by
  have hsorted : spans.Pairwise fun a b => startsFirst a b = true := by
    refine List.Pairwise.imp_of_mem (fun {a b} ha _ hab => ?_) h
    have := hle a ha
    exact startsFirst_iff.2 (.inl (by omega))
  rw [coalesce, List.mergeSort_of_pairwise hsorted, merge_of_separated h]

/-- A span lies in at most one of several that do not touch, even if it is empty. -/
theorem Separated.eq_of_encloses (h : Separated spans) {r r' s : Span} (hr : r ∈ spans)
    (hr' : r' ∈ spans) (hs : s.start ≤ s.stop) (he : r.Encloses s) (he' : r'.Encloses s) :
    r = r' := by
  induction spans with
  | nil => cases hr
  | cons first spans ih =>
    obtain ⟨hfirst, hrest⟩ := List.pairwise_cons.1 h
    -- what lies in the first span is in front of all others
    have apart : ∀ t ∈ spans, first.Encloses s → ¬ t.Encloses s := fun t ht hf hts => by
      have := hfirst t ht
      simp only [Encloses] at hf hts
      omega
    rcases List.mem_cons.1 hr with rfl | hrt <;> rcases List.mem_cons.1 hr' with rfl | hrt'
    · rfl
    · exact absurd he' (apart r' hrt' he)
    · exact absurd he (apart r hrt he')
    · exact ih hrest hrt hrt'

/-- **Merging gives a canonical form.**  The merged spans are in ascending order and do not touch;
they hold the bytes of the given spans and no others; each given span, be it empty, lies in exactly
one of them, and they begin and end where given spans do.  The order of the given spans does not
matter, and merging again changes nothing. -/
theorem coalesce_canonical (spans : List Span) (h : ∀ s ∈ spans, s.start ≤ s.stop) :
    (∀ r ∈ coalesce spans, r.start ≤ r.stop) ∧ Separated (coalesce spans) ∧
    (∀ i, (∃ r ∈ coalesce spans, r.Contains i) ↔ ∃ s ∈ spans, s.Contains i) ∧
    (∀ s ∈ spans, ∃! r, r ∈ coalesce spans ∧ r.Encloses s) ∧
    (∀ r ∈ coalesce spans, (∃ s ∈ spans, s.start = r.start) ∧ ∃ s ∈ spans, s.stop = r.stop) ∧
    (∀ spans', spans.Perm spans' → coalesce spans' = coalesce spans) ∧
    coalesce (coalesce spans) = coalesce spans := by
  have hsep := separated_coalesce spans
  have hle := le_coalesce h
  refine ⟨hle, hsep, contains_coalesce spans, fun s hs => ?_, ?_,
    fun _ hperm => (coalesce_of_perm hperm).symm, coalesce_of_separated hsep hle⟩
  · obtain ⟨r, hr, he⟩ := encloses_coalesce hs
    exact ⟨r, ⟨hr, he⟩, fun r' hr' => hsep.eq_of_encloses hr'.1 hr (h s hs) hr'.2 he⟩
  · exact ends_coalesce (p := fun n => ∃ s ∈ spans, s.start = n)
      (q := fun n => ∃ s ∈ spans, s.stop = n) fun s hs => ⟨⟨s, hs, rfl⟩, s, hs, rfl⟩

/-- Spans that are nested, that touch or that are empty, in no order. -/
def mixedSpans : List Span := [⟨8, 9⟩, ⟨5, 5⟩, ⟨1, 5⟩, ⟨2, 3⟩, ⟨7, 7⟩]

theorem coalesce_canonical_mixedSpans :
    (∀ s ∈ mixedSpans, s.start ≤ s.stop) ∧ coalesce mixedSpans = [⟨1, 5⟩, ⟨7, 7⟩, ⟨8, 9⟩] ∧
    (∃! r, r ∈ coalesce mixedSpans ∧ r.Encloses ⟨5, 5⟩) ∧
    coalesce mixedSpans.reverse = coalesce mixedSpans := by
  have hle : ∀ s ∈ mixedSpans, s.start ≤ s.stop := by decide
  have hsorted : mixedSpans.Perm [⟨1, 5⟩, ⟨2, 3⟩, ⟨5, 5⟩, ⟨7, 7⟩, ⟨8, 9⟩] := by decide
  have hmerged : coalesce mixedSpans = [⟨1, 5⟩, ⟨7, 7⟩, ⟨8, 9⟩] := by
    rw [coalesce_of_perm hsorted, coalesce, List.mergeSort_of_pairwise (by decide)]
    decide
  obtain ⟨-, -, -, hone, -, hperm, -⟩ := coalesce_canonical mixedSpans hle
  exact ⟨hle, hmerged, hone ⟨5, 5⟩ (by decide), hperm _ (List.reverse_perm mixedSpans).symm⟩

end RouteScript.Span
