import Mathlib.Data.List.Basic
import RouteScript.Proofs.Coalesce

/-!
# Lists that agree outside of some spans

A list that was changed in some places is the old list with the pieces that were there before put in
place of the changed spans (`weave`).  If spans are known that cover every change, any separated
spans around them will do (`Rewoven`).  This is kept by a splice: the spans around the new list are
pulled back to spans around the list before it.

* `rewoven_refl`: of a list that was not changed.
* `Rewoven.splice`: one more splice, with the known spans moved along.
-/

namespace RouteScript

variable {α : Type}

/-- The list from an index on, with each span of it replaced by the piece that goes with it. -/
def weave (l : List α) : Nat → List (Span × List α) → List α
  | p, [] => l.drop p
  | p, (r, piece) :: rest => (l.drop p).take (r.start - p) ++ piece ++ weave l r.stop rest

namespace Span

/-- The spans follow each other from an index on and do not touch. -/
def SeparatedFrom : Nat → List Span → Prop
  | _, [] => True
  | p, r :: rs => p ≤ r.start ∧ r.start ≤ r.stop ∧ SeparatedFrom (r.stop + 1) rs

/-- Each of the spans lies in one of the list. -/
def Covers (rs spans : List Span) : Prop := ∀ s ∈ spans, ∃ r ∈ rs, r.Encloses s

variable {rs : List Span} {p q : Nat}

theorem SeparatedFrom.mono (h : SeparatedFrom q rs) (hpq : p ≤ q) : SeparatedFrom p rs := by
  cases rs with
  | nil => trivial
  | cons r rs => exact ⟨Nat.le_trans hpq h.1, h.2⟩

theorem SeparatedFrom.le_of_mem (h : SeparatedFrom p rs) {r : Span} (hr : r ∈ rs) :
    p ≤ r.start ∧ r.start ≤ r.stop := by
  induction rs generalizing p with
  | nil => cases hr
  | cons t rs ih =>
    obtain ⟨hp, ht, hrs⟩ := h
    rcases List.mem_cons.1 hr with rfl | hr
    · exact ⟨hp, ht⟩
    · have := ih hrs hr
      exact ⟨by omega, this.2⟩

/-- Two of the spans are the same, or one comes before the other. -/
theorem SeparatedFrom.trichotomy (h : SeparatedFrom p rs) {r t : Span} (hr : r ∈ rs) (ht : t ∈ rs) :
    r = t ∨ r.stop < t.start ∨ t.stop < r.start := by
  induction rs generalizing p with
  | nil => cases hr
  | cons u rs ih =>
    rcases List.mem_cons.1 hr with hru | hr' <;> rcases List.mem_cons.1 ht with htu | ht'
    · exact .inl (hru.trans htu.symm)
    · have := h.2.2.le_of_mem ht'
      exact .inr (.inl (by rw [hru]; omega))
    · have := h.2.2.le_of_mem hr'
      exact .inr (.inr (by rw [htu]; omega))
    · exact ih h.2.2 hr' ht'

theorem separatedFrom_of_separated (hs : Separated rs) (hv : ∀ r ∈ rs, r.start ≤ r.stop)
    (hp : ∀ r ∈ rs, p ≤ r.start) : SeparatedFrom p rs := by
  induction rs generalizing p with
  | nil => trivial
  | cons r rs ih =>
    rw [Separated, List.pairwise_cons] at hs
    rw [List.forall_mem_cons] at hv hp
    exact ⟨hp.1, hv.1, ih hs.2 hv.2 hs.1⟩

end Span

open RouteScript.Span

/-! ### Lists that were not changed -/

theorem take_drop_append {l : List α} {p q : Nat} (h : p ≤ q) :
    (l.drop p).take (q - p) ++ l.drop q = l.drop p := by
  have hd : l.drop q = (l.drop p).drop (q - p) := by
    rw [List.drop_drop]
    congr 1
    omega
  rw [hd, List.take_append_drop]

theorem exists_weave_self {rs : List Span} {p : Nat} (l : List α) (h : SeparatedFrom p rs) :
    ∃ pieces : List (List α), pieces.length = rs.length ∧ l.drop p = weave l p (rs.zip pieces) := by
  induction rs generalizing p with
  | nil => exact ⟨[], rfl, rfl⟩
  | cons r rs ih =>
    obtain ⟨hp, hr, hrs⟩ := h
    obtain ⟨pieces, hlen, hw⟩ := ih (hrs.mono (Nat.le_succ _))
    refine ⟨(l.drop r.start).take (r.stop - r.start) :: pieces, by simp [hlen], ?_⟩
    rw [List.zip_cons_cons, weave, ← hw, List.append_assoc, take_drop_append hr, take_drop_append hp]

/-- The new list is the old one outside of any separated spans that cover the given ones. -/
def Rewoven (old new : List α) (spans : List Span) : Prop :=
  ∀ rs, SeparatedFrom 0 rs → Covers rs spans →
    ∃ pieces : List (List α), pieces.length = rs.length ∧ old = weave new 0 (rs.zip pieces)

theorem rewoven_refl (l : List α) (spans : List Span) : Rewoven l l spans :=
  fun _ hrs _ => exists_weave_self l hrs

/-! ### Splices -/

namespace Splice

variable {s : Splice}

/-- The list after the replacement. -/
def onList (s : Splice) (l written : List α) : List α :=
  l.take s.start ++ written ++ l.drop s.oldStop

/-- The replaced part belongs to the list, and the written part has the right size. -/
structure Fits (s : Splice) (l written : List α) : Prop where
  start_le : s.start ≤ s.oldStop
  oldStop_le : s.oldStop ≤ l.length
  newStop_eq : s.newStop = s.start + written.length

/-- The span of the list before the replacement that a span of the list after it stands for, if it
encloses the written part or keeps away from it. -/
def pull (s : Splice) (r : Span) : Span :=
  ⟨if r.start ≤ s.start then r.start else s.oldStop + (r.start - s.newStop),
    if r.stop < s.newStop then r.stop else s.oldStop + (r.stop - s.newStop)⟩

variable {l written : List α}

theorem Fits.start_le_newStop (h : s.Fits l written) : s.start ≤ s.newStop := by
  rw [h.newStop_eq]
  exact Nat.le_add_right ..

theorem Fits.length_onList (h : s.Fits l written) :
    (s.onList l written).length + s.oldStop = l.length + s.newStop := by
  have := h.oldStop_le
  have := h.start_le
  have := h.newStop_eq
  simp only [onList, List.length_append, List.length_take, List.length_drop]
  omega

theorem Fits.take_onList (h : s.Fits l written) {n : Nat} (hn : n ≤ s.start) :
    (s.onList l written).take n = l.take n := by
  have hl : n ≤ (l.take s.start).length := by
    have := h.oldStop_le
    have := h.start_le
    rw [List.length_take]
    omega
  rw [onList, List.append_assoc, List.take_append_of_le_length hl, List.take_take,
    Nat.min_eq_left hn]

theorem Fits.drop_onList (h : s.Fits l written) {n : Nat} (hn : s.newStop ≤ n) :
    (s.onList l written).drop n = l.drop (s.oldStop + (n - s.newStop)) := by
  have hlen : (l.take s.start ++ written).length = s.newStop := by
    have := h.oldStop_le
    have := h.start_le
    rw [List.length_append, List.length_take, h.newStop_eq]
    omega
  have hd : (s.onList l written).drop s.newStop = l.drop s.oldStop := by
    rw [onList, ← hlen, List.drop_left]
  rw [← List.drop_drop, ← hd, List.drop_drop]
  congr 1
  omega

theorem Fits.slice_onList (h : s.Fits l written) {p q : Nat} (hq : q ≤ s.start) :
    ((s.onList l written).drop p).take (q - p) = (l.drop p).take (q - p) := by
  by_cases hpq : p ≤ q
  · have hp : p + (q - p) = q := by omega
    rw [List.take_drop, List.take_drop, hp, h.take_onList hq]
  · have hz : q - p = 0 := by omega
    rw [hz, List.take_zero, List.take_zero]

theorem Fits.getElem?_front (h : s.Fits l written) {i : Nat} (hi : i < s.start) :
    (s.onList l written)[i]? = l[i]? := by
  rw [← List.getElem?_take_of_lt (Nat.lt_succ_self i), h.take_onList hi,
    List.getElem?_take_of_lt (Nat.lt_succ_self i)]

theorem Fits.getElem?_written (h : s.Fits l written) {i : Nat} (hs : s.start ≤ i)
    (hn : i < s.newStop) : (s.onList l written)[i]? = written[i - s.start]? := by
  have hlen : (l.take s.start).length = s.start := by
    have := h.oldStop_le
    have := h.start_le
    rw [List.length_take]
    omega
  have := h.newStop_eq
  rw [onList, List.append_assoc, List.getElem?_append_right (by omega), hlen,
    List.getElem?_append_left (by omega)]

theorem Fits.getElem?_behind (h : s.Fits l written) {i : Nat} (hi : s.newStop ≤ i) :
    (s.onList l written)[i]? = l[s.oldStop + (i - s.newStop)]? := by
  rw [← List.head?_drop, h.drop_onList hi, List.head?_drop]

/-! ### Spans before and after a splice -/

variable {rs : List Span} {p : Nat}

/-- Spans behind the written part are shifted. -/
theorem pull_of_newStop_lt (hle : s.start ≤ s.newStop) {r : Span} (h : s.newStop < r.start)
    (hr : r.start ≤ r.stop) :
    s.pull r = ⟨s.oldStop + (r.start - s.newStop), s.oldStop + (r.stop - s.newStop)⟩ := by
  rw [pull, if_neg (by omega), if_neg (by omega)]

/-- Spans in front of the written part stay where they are. -/
theorem pull_of_lt_start (hle : s.start ≤ s.newStop) {r : Span} (h : r.stop < s.start)
    (hr : r.start ≤ r.stop) : s.pull r = r := by
  rw [pull, if_pos (by omega), if_pos (by omega)]

/-- The span around the written part becomes one around the replaced part. -/
theorem pull_of_encloses {r : Span} (h : r.Encloses s.written) :
    s.pull r = ⟨r.start, s.oldStop + (r.stop - s.newStop)⟩ := by
  simp only [Span.Encloses, written] at h
  rw [pull, if_pos h.1, if_neg (by omega)]

theorem separatedFrom_pull_behind (hle : s.start ≤ s.newStop) (hp : s.newStop < p)
    (h : SeparatedFrom p rs) : SeparatedFrom (s.oldStop + (p - s.newStop)) (rs.map s.pull) := by
  induction rs generalizing p with
  | nil => trivial
  | cons r rs ih =>
    obtain ⟨hpr, hr, hrs⟩ := h
    have ih := ih (by omega) hrs
    rw [List.map_cons, pull_of_newStop_lt hle (by omega) hr]
    refine ⟨by simp only; omega, by simp only; omega, ih.mono ?_⟩
    simp only
    omega

/-- Separated spans, one of them around the written part, stand for separated spans. -/
theorem separatedFrom_pull (hle : s.start ≤ s.newStop) (hlo : s.start ≤ s.oldStop)
    (h : SeparatedFrom p rs) {around : Span} (ha : around ∈ rs) (he : around.Encloses s.written) :
    SeparatedFrom p (rs.map s.pull) := by
  have hstart : around.start ≤ s.start := he.1
  have hstop : s.newStop ≤ around.stop := he.2
  induction rs generalizing p with
  | nil => cases ha
  | cons r rs ih =>
    obtain ⟨hpr, hr, hrs⟩ := h
    rw [List.map_cons]
    rcases List.mem_cons.1 ha with rfl | ha
    · rw [pull_of_encloses he]
      refine ⟨hpr, by simp only; omega, ?_⟩
      refine (separatedFrom_pull_behind hle (by omega) hrs).mono ?_
      simp only
      omega
    · have := hrs.le_of_mem ha
      rw [pull_of_lt_start hle (by omega) hr]
      exact ⟨hpr, hr, ih hrs ha⟩

/-- A span in front of the replaced part stays, every other one ends behind the written part: it is
shifted, or it meets the replaced part and grows. -/
theorem move_cases (s : Splice) (t : Span) :
    t.stop ≤ s.start ∧ s.move t = t ∨
      s.start < t.stop ∧ (s.move t).stop = s.newStop + (t.stop - s.oldStop) ∧
        (s.oldStop ≤ t.start ∧ (s.move t).start = s.newStop + (t.start - s.oldStop) ∨
          t.start < s.oldStop ∧ (s.move t).start = min t.start s.start) := by
  unfold move
  split
  · rename_i h
    exact .inl ⟨h, rfl⟩
  · refine .inr ⟨by omega, ?_⟩
    split
    · rename_i h
      exact ⟨rfl, .inl ⟨h, rfl⟩⟩
    · refine ⟨?_, .inr ⟨by omega, rfl⟩⟩
      simp only
      split <;> omega

/-- If spans cover moved ones, what they stand for covers those before the move. -/
theorem covers_pull (hle : s.start ≤ s.newStop) (hlo : s.start ≤ s.oldStop)
    (h : SeparatedFrom p rs) {around : Span} (ha : around ∈ rs) (he : around.Encloses s.written)
    {spans : List Span} (hv : ∀ t ∈ spans, t.start ≤ t.stop) (hc : Covers rs (spans.map s.move)) :
    Covers (rs.map s.pull) spans := by
  intro t ht
  obtain ⟨r, hr, hrt⟩ := hc (s.move t) (List.mem_map_of_mem ht)
  refine ⟨s.pull r, List.mem_map_of_mem hr, ?_⟩
  have hvt := hv t ht
  have hvr := (h.le_of_mem hr).2
  have hstart : around.start ≤ s.start := he.1
  have hstop : s.newStop ≤ around.stop := he.2
  have hmove := s.move_cases t
  -- `r` is the span around the written part, in front of it or behind it
  rcases h.trichotomy hr ha with rfl | hfront | hbehind
  · rw [pull_of_encloses he]
    rcases hmove with ⟨hs, hm⟩ | hm
    · rw [hm] at hrt
      exact ⟨hrt.1, by simp only; omega⟩
    · simp only [Span.Encloses] at hrt ⊢
      omega
  · rw [pull_of_lt_start hle (by omega) hvr]
    rcases hmove with ⟨-, hm⟩ | hm
    · rw [hm] at hrt
      exact hrt
    · simp only [Span.Encloses] at hrt
      omega
  · rw [pull_of_newStop_lt hle (by omega) hvr]
    rcases hmove with ⟨hs, hm⟩ | hm
    · rw [hm, Span.Encloses] at hrt
      omega
    · simp only [Span.Encloses] at hrt ⊢
      omega

/-! ### Weaving before and after a splice -/

theorem Fits.weave_behind (h : s.Fits l written) (hp : s.newStop ≤ p)
    (hrs : SeparatedFrom (p + 1) rs) (pieces : List (List α)) :
    weave (s.onList l written) p (rs.zip pieces) =
      weave l (s.oldStop + (p - s.newStop)) ((rs.map s.pull).zip pieces) := by
  induction rs generalizing p pieces with
  | nil => exact h.drop_onList hp
  | cons r rs ih =>
    cases pieces with
    | nil => exact h.drop_onList hp
    | cons piece pieces =>
      obtain ⟨hpr, hr, hrs⟩ := hrs
      rw [List.map_cons, List.zip_cons_cons, List.zip_cons_cons, weave, weave,
        pull_of_newStop_lt h.start_le_newStop (by omega) hr, h.drop_onList hp,
        ih (by omega) hrs]
      congr 3
      simp only
      omega

/-- Outside of spans around the written part, the lists before and after are the same. -/
theorem Fits.weave_onList (h : s.Fits l written) (hrs : SeparatedFrom p rs) {around : Span}
    (ha : around ∈ rs) (he : around.Encloses s.written) (pieces : List (List α))
    (hlen : pieces.length = rs.length) :
    weave (s.onList l written) p (rs.zip pieces) = weave l p ((rs.map s.pull).zip pieces) := by
  have hstart : around.start ≤ s.start := he.1
  have hstop : s.newStop ≤ around.stop := he.2
  induction rs generalizing p pieces with
  | nil => cases ha
  | cons r rs ih =>
    cases pieces with
    | nil => cases hlen
    | cons piece pieces =>
      obtain ⟨hpr, hr, hrs⟩ := hrs
      rw [List.map_cons, List.zip_cons_cons, List.zip_cons_cons, weave, weave]
      rcases List.mem_cons.1 ha with rfl | ha
      · rw [pull_of_encloses he, h.slice_onList hstart, h.weave_behind hstop hrs]
      · have := hrs.le_of_mem ha
        rw [pull_of_lt_start h.start_le_newStop (by omega) hr, h.slice_onList (by omega),
          ih (hrs.mono (Nat.le_succ _)) ha pieces (Nat.succ.inj hlen)]

end Splice

open Splice in
/-- After one more splice, the spans moved along and the written one cover every change. -/
theorem Rewoven.splice {old l written : List α} {s : Splice} {spans : List Span}
    (h : Rewoven old l spans) (hf : s.Fits l written) (hv : ∀ t ∈ spans, t.start ≤ t.stop)
    (extra : List Span) :
    Rewoven old (s.onList l written) (spans.map s.move ++ extra ++ [s.written]) := by
  intro rs hrs hc
  obtain ⟨around, ha, he⟩ := hc s.written (by simp)
  have hmoved : Covers rs (spans.map s.move) := fun t ht =>
    hc t (List.mem_append_left _ (List.mem_append_left _ ht))
  obtain ⟨pieces, hlen, hw⟩ := h (rs.map s.pull)
    (separatedFrom_pull hf.start_le_newStop hf.start_le hrs ha he)
    (covers_pull hf.start_le_newStop hf.start_le hrs ha he hv hmoved)
  rw [List.length_map] at hlen
  refine ⟨pieces, hlen, ?_⟩
  rw [hw, hf.weave_onList hrs ha he pieces hlen]

end RouteScript
