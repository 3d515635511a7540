import RouteScript.Proofs.Offsets

/-!
# Positions and back

The position of an offset names a line and a column, and the offset of that position is the offset
again if it is firm: if it lies neither in a character nor between the two characters of a line
ending.

* `offsetOf_positionOf`: the offset of the position of a firm offset is the offset.
* `isFirm_start`, `isFirm_stop`: the ends of a part of a text that does not start with a line feed
  and does not end with a carriage return are firm.
* `selected_rangeOf`: the range of such a part selects the part.
-/

namespace RouteScript.Text

/-- The text that a range selects. -/
def selected (t : Text) (r : Range) : Text := t.slice ⟨t.offsetOf r.start, t.offsetOf r.stop⟩

theorem isFirm_start {front rest : Text} (h : rest.head? ≠ some '\n') :
    IsFirm (front ++ rest) (bytes front) := ⟨front, rest, rfl, rfl, fun hc => h hc.2⟩

theorem isFirm_stop {front rest : Text} (h : front.getLast? ≠ some '\r') :
    IsFirm (front ++ rest) (bytes front) := ⟨front, rest, rfl, rfl, fun hc => h hc.1⟩

/-! ### Lines -/

theorem lines_ne_nil (t : Text) : lines t ≠ [] := by
  fun_induction lines t with
  | case1 => exact List.cons_ne_nil _ _
  | case2 t ih => exact List.cons_ne_nil _ _
  | case3 c t _ h ih => exact List.cons_ne_nil _ _
  | case4 c t _ h ih =>
    cases hl : lines t with
    | nil => exact absurd hl ih
    | cons l ls => exact List.cons_ne_nil _ _

theorem unitSize_pos (c : Char) : 0 < unitSize c := by
  unfold unitSize
  split <;> decide

@[simp] theorem takeUnits_zero (t : Text) : takeUnits 0 t = [] := by
  cases t with
  | nil => rfl
  | cons c t => exact if_neg (Nat.not_le.2 (unitSize_pos c))

@[simp] theorem takeBytes_zero (t : Text) : takeBytes 0 t = [] := by
  cases t with
  | nil => rfl
  | cons c t => exact if_neg (Nat.not_le.2 c.utf8Size_pos)

/-- The offset of the position of an offset. -/
def settled (ls : List Line) (n : Nat) : Nat :=
  offsetIn ls (positionIn ls n).line (positionIn ls n).character

theorem positionIn_cons (l : Line) {ls : List Line} (hls : ls ≠ []) (n : Nat) :
    positionIn (l :: ls) n =
      if n < l.bytes then ⟨0, units (takeBytes n l.body)⟩
      else (positionIn ls (n - l.bytes)).down 1 := by
  cases ls with
  | nil => exact absurd rfl hls
  | cons l' ls => rfl

/-- The start of the text is where it was. -/
theorem settled_zero (ls : List Line) : settled ls 0 = 0 := by
  induction ls with
  | nil => rfl
  | cons l ls ih =>
    have hstart : settled (l :: ls) 0 = bytes (takeUnits (units (takeBytes 0 l.body)) l.body) ∨
        settled (l :: ls) 0 = l.bytes + settled ls 0 ∧ l.bytes = 0 := by
      by_cases hls : ls = []
      · subst hls
        exact .inl rfl
      · unfold settled
        rw [positionIn_cons l hls]
        split
        · exact .inl rfl
        · rename_i hl
          rw [Nat.zero_sub]
          exact .inr ⟨rfl, by omega⟩
    rcases hstart with h | ⟨h, hl⟩
    · rw [h, takeBytes_zero, units, takeUnits_zero, bytes_nil]
    · rw [h, ih, hl]

/-- Behind a line, all is as it is in the lines behind it. -/
theorem settled_cons (l : Line) {ls : List Line} (hls : ls ≠ []) (n : Nat) :
    settled (l :: ls) (l.bytes + n) = l.bytes + settled ls n := by
  unfold settled
  rw [positionIn_cons l hls, if_neg (Nat.not_lt.2 (Nat.le_add_right ..)), Nat.add_sub_cancel_left]
  rfl

/-- A character in front of a line moves what is behind it in the line by its size. -/
theorem settled_extendFirst (c : Char) {ls : List Line} (hls : ls ≠ []) (n : Nat) :
    settled (extendFirst c ls) (c.utf8Size + n) = c.utf8Size + settled ls n := by
  obtain ⟨l, ls, rfl⟩ := List.exists_cons_of_ne_nil hls
  have htake : takeBytes (c.utf8Size + n) (c :: l.body) = c :: takeBytes n l.body := by
    rw [takeBytes, if_pos (Nat.le_add_right ..), Nat.add_sub_cancel_left]
  have hunits : ∀ m, bytes (takeUnits (unitSize c + m) (c :: l.body)) =
      c.utf8Size + bytes (takeUnits m l.body) := fun m => by
    rw [takeUnits, if_pos (Nat.le_add_right ..), Nat.add_sub_cancel_left, bytes_cons]
  have hbytes : (⟨c :: l.body, l.ending⟩ : Line).bytes = c.utf8Size + l.bytes :=
    Nat.add_assoc ..
  by_cases hrest : ls = []
  · subst hrest
    simp only [settled, extendFirst, positionIn, offsetIn, htake, units]
    exact hunits _
  · unfold settled extendFirst
    rw [positionIn_cons _ hrest, positionIn_cons _ hrest, hbytes]
    by_cases hn : n < l.bytes
    · rw [if_pos hn, if_pos (Nat.add_lt_add_left hn _), htake]
      exact hunits _
    · rw [if_neg hn, if_neg (by omega), Nat.add_sub_add_left]
      exact (congrArg (· + _) hbytes).trans (Nat.add_assoc ..)

/-! ### The round trip -/

theorem firm_of_cons {c : Char} {front rest : Text}
    (h : ¬ ((c :: front).getLast? = some '\r' ∧ rest.head? = some '\n')) :
    ¬ (front.getLast? = some '\r' ∧ rest.head? = some '\n') := by
  rintro ⟨hf, hr⟩
  refine h ⟨?_, hr⟩
  rw [List.getLast?_cons, hf]
  rfl

theorem settled_lines {front rest : Text}
    (h : ¬ (front.getLast? = some '\r' ∧ rest.head? = some '\n')) :
    settled (lines (front ++ rest)) (bytes front) = bytes front := by
  generalize ht : front ++ rest = t
  -- the front part loses the characters of a line ending at once, and other characters one by one
  fun_induction lines t generalizing front with
  | case1 =>
    obtain ⟨rfl, rfl⟩ := List.append_eq_nil_iff.1 ht
    exact settled_zero _
  | case2 t ih =>
    cases front with
    | nil => exact settled_zero _
    | cons c front =>
      obtain ⟨rfl, hbehind⟩ := List.cons_eq_cons.1 ht
      cases front with
      | nil => exact absurd ⟨rfl, congrArg List.head? hbehind⟩ h
      | cons c' front =>
        obtain ⟨rfl, hrest⟩ := List.cons_eq_cons.1 hbehind
        have := settled_cons ⟨[], ['\r', '\n']⟩ (lines_ne_nil t) (bytes front)
        rw [ih (firm_of_cons (firm_of_cons h)) hrest] at this
        simpa [Line.bytes, Nat.add_assoc] using this
  | case3 c t _ hc ih =>
    cases front with
    | nil => exact settled_zero _
    | cons c' front =>
      obtain ⟨rfl, hrest⟩ := List.cons_eq_cons.1 ht
      have := settled_cons ⟨[], [c']⟩ (lines_ne_nil t) (bytes front)
      rw [ih (firm_of_cons h) hrest] at this
      simpa [Line.bytes] using this
  | case4 c t _ hc ih =>
    cases front with
    | nil => exact settled_zero _
    | cons c' front =>
      obtain ⟨rfl, hrest⟩ := List.cons_eq_cons.1 ht
      rw [bytes_cons, settled_extendFirst c' (lines_ne_nil t), ih (firm_of_cons h) hrest]

/-- The offset of the position of a firm offset is the offset. -/
theorem offsetOf_positionOf {t : Text} {n : Nat} (h : t.IsFirm n) :
    t.offsetOf (t.positionOf n) = n := by
  obtain ⟨front, rest, rfl, rfl, hfirm⟩ := h
  exact settled_lines hfirm

/-- The range of a part that is cut out at firm offsets selects the part. -/
theorem selected_rangeOf {t : Text} {s : Span} (hstart : t.IsFirm s.start)
    (hstop : t.IsFirm s.stop) : t.selected (t.rangeOf s) = t.slice s := by
  rw [selected, rangeOf, offsetOf_positionOf hstart, offsetOf_positionOf hstop]

end RouteScript.Text
