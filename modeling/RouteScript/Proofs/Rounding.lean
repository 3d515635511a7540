import Mathlib.Order.Bounds.Basic
import RouteScript.Proofs.Positions

/-!
# Rounding to firm offsets

Going from an offset to its position and back moves it to the front until it is firm: out of a
character, and out of a line ending of two characters.  Going from a position to its offset and back
settles the columns and lines that the text does not have.

* `isFirm_offsetOf`: a position names a firm offset.
* `offsetOf_mono`, `positionOf_mono`: what comes later in one count does not come earlier in the
  other.
* `isGreatest_offsetOf_positionOf`: the offset of the position of an offset is the last firm one that
  does not lie behind it.
* `positions_round`: positions and offsets are inverse to one another up to this rounding.
-/

namespace RouteScript

namespace Position

theorem le_iff {p q : Position} :
    p.le q = true ↔ p.line < q.line ∨ p.line = q.line ∧ p.character ≤ q.character := by
  simp [le]

theorem le_down {p q : Position} (h : p.le q = true) (n : Nat) :
    (p.down n).le (q.down n) = true := by
  rw [le_iff] at h ⊢
  simp only [down]
  omega

/-- The position with its line and its column cut to 32 bits. -/
def narrow (p : Position) : Position := ⟨p.line % UInt32.size, p.character % UInt32.size⟩

end Position

namespace Text

/-! ### Columns of a line -/

theorem takeUnits_units_takeBytes (n : Nat) (t : Text) :
    takeUnits (units (takeBytes n t)) t = takeBytes n t := by
  induction t generalizing n with
  | nil => rfl
  | cons c t ih =>
    rw [takeBytes]
    split
    · rw [units, takeUnits, if_pos (Nat.le_add_right ..), Nat.add_sub_cancel_left, ih]
    · rw [units, takeUnits_zero]

theorem bytes_takeUnits_mono {m n : Nat} (h : m ≤ n) (t : Text) :
    bytes (takeUnits m t) ≤ bytes (takeUnits n t) := by
  induction t generalizing m n with
  | nil => exact Nat.le_refl _
  | cons c t ih =>
    rw [takeUnits, takeUnits]
    by_cases hm : unitSize c ≤ m
    · rw [if_pos hm, if_pos (hm.trans h), bytes_cons, bytes_cons]
      exact Nat.add_le_add_left (ih (Nat.sub_le_sub_right h _)) _
    · rw [if_neg hm]
      exact Nat.zero_le _

theorem bytes_takeUnits_le (n : Nat) (t : Text) : bytes (takeUnits n t) ≤ bytes t := by
  obtain ⟨rest, h⟩ := exists_takeUnits_append n t
  conv_rhs => rw [h, bytes_append]
  exact Nat.le_add_right ..

theorem units_takeBytes_mono {m n : Nat} (h : m ≤ n) (t : Text) :
    units (takeBytes m t) ≤ units (takeBytes n t) := by
  induction t generalizing m n with
  | nil => exact Nat.le_refl _
  | cons c t ih =>
    rw [takeBytes, takeBytes]
    by_cases hm : c.utf8Size ≤ m
    · rw [if_pos hm, if_pos (hm.trans h), units, units]
      exact Nat.add_le_add_left (ih (Nat.sub_le_sub_right h _)) _
    · rw [if_neg hm]
      exact Nat.zero_le _

theorem units_append (s t : Text) : units (s ++ t) = units s + units t := by
  induction s with
  | nil => exact (Nat.zero_add _).symm
  | cons c s ih => rw [List.cons_append, units, units, ih, Nat.add_assoc]

theorem units_takeBytes_le (n : Nat) (t : Text) : units (takeBytes n t) ≤ units t := by
  conv_rhs => rw [← takeBytes_append_dropBytes n t, units_append]
  exact Nat.le_add_right ..

/-! ### Positions name firm offsets -/

theorem isFirm_zero (t : Text) : t.IsFirm 0 := ⟨[], t, rfl, rfl, fun h => by cases h.1⟩

/-- A firm offset stays so behind one more character, unless it is the start and a line ending is
parted. -/
theorem IsFirm.cons {t : Text} {n : Nat} (h : t.IsFirm n) {c : Char}
    (hc : n = 0 → c = '\r' → t.head? ≠ some '\n') : IsFirm (c :: t) (c.utf8Size + n) := by
  obtain ⟨front, rest, rfl, rfl, hfirm⟩ := h
  refine ⟨c :: front, rest, rfl, rfl, ?_⟩
  rintro ⟨hlast, hhead⟩
  cases front with
  | nil => exact hc rfl (Option.some.inj hlast) hhead
  | cons d front => exact hfirm ⟨hlast, hhead⟩

theorem isFirm_offsetIn_lines (t : Text) (line column : Nat) :
    t.IsFirm (offsetIn (lines t) line column) := by
  fun_induction lines t generalizing line column with
  | case1 => cases line <;> exact isFirm_zero _
  | case2 t ih =>
    cases line with
    | zero => exact isFirm_zero _
    | succ line =>
      -- the carriage return is followed by the line feed, which is passed too
      have hpos : '\n'.utf8Size + offsetIn (lines t) line column ≠ 0 :=
        Nat.ne_of_gt (Nat.add_pos_left '\n'.utf8Size_pos _)
      have hfeed : IsFirm ('\n' :: t) ('\n'.utf8Size + offsetIn (lines t) line column) :=
        (ih line column).cons fun _ h => by cases h
      have := hfeed.cons (c := '\r') fun h => absurd h hpos
      simpa [offsetIn, Line.bytes, Nat.add_assoc] using this
  | case3 c t hlone hc ih =>
    cases line with
    | zero => exact isFirm_zero _
    | succ line =>
      have hnext : c = '\r' → t.head? ≠ some '\n' := by
        rintro rfl hhead
        obtain ⟨rest, rfl⟩ := List.head?_eq_some_iff.1 hhead
        exact hlone rest rfl rfl
      have := (ih line column).cons fun _ => hnext
      simpa [offsetIn, Line.bytes] using this
  | case4 c t hlone hc ih =>
    have hnext : ∀ n, n = 0 → c = '\r' → t.head? ≠ some '\n' := fun _ _ h => absurd (.inr h) hc
    obtain ⟨l, ls, hl⟩ := List.exists_cons_of_ne_nil (lines_ne_nil t)
    rw [hl, extendFirst]
    cases line with
    | zero =>
      rw [offsetIn, takeUnits]
      split
      · have := (ih 0 (column - unitSize c)).cons (hnext _)
        rwa [hl, offsetIn] at this
      · exact isFirm_zero _
    | succ line =>
      have := (ih (line + 1) column).cons (hnext _)
      rw [hl, offsetIn, Line.bytes] at this
      rw [offsetIn, Line.bytes, bytes_cons, Nat.add_assoc, Nat.add_assoc]
      rwa [Nat.add_assoc] at this

/-- A position names a firm offset. -/
theorem isFirm_offsetOf (t : Text) (p : Position) : t.IsFirm (t.offsetOf p) :=
  isFirm_offsetIn_lines t p.line p.character

theorem IsFirm.le_bytes {t : Text} {n : Nat} (h : t.IsFirm n) : n ≤ t.bytes := by
  obtain ⟨front, rest, rfl, rfl, -⟩ := h
  rw [bytes_append]
  exact Nat.le_add_right ..

/-! ### Both counts go the same way -/

theorem offsetIn_mono {ls : List Line} {p q : Position} (h : p.le q = true) :
    offsetIn ls p.line p.character ≤ offsetIn ls q.line q.character := by
  obtain ⟨line, column⟩ := p
  obtain ⟨line', column'⟩ := q
  simp only [Position.le_iff] at h ⊢
  induction ls generalizing line line' with
  | nil => exact Nat.le_refl _
  | cons l ls ih =>
    match line, line' with
    | 0, 0 => exact bytes_takeUnits_mono (by omega) l.body
    | 0, line' + 1 =>
      calc bytes (takeUnits column l.body)
        _ ≤ bytes l.body := bytes_takeUnits_le ..
        _ ≤ l.bytes := Nat.le_add_right ..
        _ ≤ l.bytes + offsetIn ls line' column' := Nat.le_add_right ..
    | line + 1, 0 => omega
    | line + 1, line' + 1 => exact Nat.add_le_add_left (ih line line' (by omega)) _

theorem positionIn_mono {ls : List Line} {m n : Nat} (h : m ≤ n) :
    (positionIn ls m).le (positionIn ls n) = true := by
  induction ls generalizing m n with
  | nil => rfl
  | cons l ls ih =>
    have hcolumn := units_takeBytes_mono h l.body
    by_cases hls : ls = []
    · subst hls
      exact Position.le_iff.2 (.inr ⟨rfl, hcolumn⟩)
    · rw [positionIn_cons l hls, positionIn_cons l hls]
      by_cases hn : n < l.bytes
      · rw [if_pos hn, if_pos (Nat.lt_of_le_of_lt h hn)]
        exact Position.le_iff.2 (.inr ⟨rfl, hcolumn⟩)
      · rw [if_neg hn]
        split
        · exact Position.le_iff.2 (.inl (Nat.succ_pos _))
        · exact Position.le_down (ih (Nat.sub_le_sub_right h _)) 1

theorem offsetOf_mono (t : Text) {p q : Position} (h : p.le q = true) :
    t.offsetOf p ≤ t.offsetOf q := offsetIn_mono h

theorem positionOf_mono (t : Text) {m n : Nat} (h : m ≤ n) :
    (t.positionOf m).le (t.positionOf n) = true := positionIn_mono h

/-- Of two firm offsets, the first one has the earlier position. -/
theorem IsFirm.positionOf_lt {t : Text} {m n : Nat} (hm : t.IsFirm m) (hn : t.IsFirm n)
    (h : m < n) : (t.positionOf m).line < (t.positionOf n).line ∨
      (t.positionOf m).line = (t.positionOf n).line ∧
        (t.positionOf m).character < (t.positionOf n).character := by
  have hle := Position.le_iff.1 (positionOf_mono t (Nat.le_of_lt h))
  have hm' := offsetOf_positionOf hm
  have hn' := offsetOf_positionOf hn
  rcases hp : t.positionOf m with ⟨line, character⟩
  rcases hq : t.positionOf n with ⟨line', character'⟩
  rw [hp, hq] at hle
  rcases hle with hlt | ⟨rfl, hle⟩
  · exact .inl hlt
  · refine .inr ⟨rfl, Nat.lt_of_le_of_ne hle ?_⟩
    rintro rfl
    rw [hp, ← hq, hn'] at hm'
    omega

/-! ### The last firm offset -/

theorem settled_le (ls : List Line) (n : Nat) : settled ls n ≤ n := by
  have hcolumn : ∀ (n : Nat) (t : Text), bytes (takeUnits (units (takeBytes n t)) t) ≤ n := by
    intro n t
    rw [takeUnits_units_takeBytes]
    exact bytes_takeBytes_le n t
  induction ls generalizing n with
  | nil => exact Nat.zero_le _
  | cons l ls ih =>
    by_cases hls : ls = []
    · subst hls
      exact hcolumn n l.body
    · by_cases hn : n < l.bytes
      · rw [settled, positionIn_cons l hls, if_pos hn]
        exact hcolumn n l.body
      · obtain ⟨k, rfl⟩ := Nat.exists_eq_add_of_le (Nat.not_lt.1 hn)
        rw [settled_cons l hls]
        exact Nat.add_le_add_left (ih k) _

/-- The offset of the position of an offset is the last firm one that does not lie behind it. -/
theorem isGreatest_offsetOf_positionOf (t : Text) (n : Nat) :
    IsGreatest {b | b ≤ min n t.bytes ∧ t.IsFirm b} (t.offsetOf (t.positionOf n)) := by
  have hfirm := isFirm_offsetOf t (t.positionOf n)
  refine ⟨⟨le_min (settled_le (lines t) n) hfirm.le_bytes, hfirm⟩, ?_⟩
  rintro b ⟨hb, hbfirm⟩
  calc b
    _ = t.offsetOf (t.positionOf b) := (offsetOf_positionOf hbfirm).symm
    _ ≤ t.offsetOf (t.positionOf n) :=
      offsetOf_mono t (positionOf_mono t (hb.trans (min_le_left ..)))

/-! ### Small texts -/

theorem positionIn_bounds {ls : List Line} (hls : ls ≠ []) (n : Nat) :
    (positionIn ls n).line < ls.length ∧
      (positionIn ls n).character ≤ units (ls.map Line.toText).flatten := by
  induction ls generalizing n with
  | nil => exact absurd rfl hls
  | cons l ls ih =>
    have hunits : units ((l :: ls).map Line.toText).flatten =
        units l.body + units l.ending + units (ls.map Line.toText).flatten := by
      rw [List.map_cons, List.flatten_cons, units_append, Line.toText, units_append]
    have hcolumn := units_takeBytes_le n l.body
    rw [hunits, List.length_cons]
    by_cases hrest : ls = []
    · subst hrest
      refine ⟨Nat.succ_pos _, ?_⟩
      simp only [positionIn]
      omega
    · rw [positionIn_cons l hrest]
      split
      · refine ⟨Nat.succ_pos _, ?_⟩
        simp only
        omega
      · obtain ⟨hline, hcharacter⟩ := ih hrest (n - l.bytes)
        exact ⟨Nat.succ_lt_succ hline, Nat.le_add_left_of_le hcharacter⟩

/-- The position of an offset has no more lines in front of it than the text has, and no more units
than the text has. -/
theorem positionOf_bounds (t : Text) (n : Nat) :
    (t.positionOf n).line < t.lines.length ∧ (t.positionOf n).character ≤ t.units := by
  have h := positionIn_bounds (lines_ne_nil t) n
  rwa [flatten_lines] at h

theorem narrow_positionOf {t : Text} (hlines : t.lines.length < UInt32.size) (hunits : t.units < UInt32.size)
    (n : Nat) : (t.positionOf n).narrow = t.positionOf n := by
  obtain ⟨hline, hcharacter⟩ := positionOf_bounds t n
  rw [Position.narrow, Nat.mod_eq_of_lt (hline.trans hlines),
    Nat.mod_eq_of_lt (hcharacter.trans_lt hunits)]

/-! ### There and back -/

/-- **Positions and offsets are inverse to one another up to rounding.**  From an offset to its
position and back leads to the last offset that does not lie behind it or behind the text and that is
neither in a character nor between a carriage return and a line feed.  A position names such an
offset, so going there and back again changes nothing.  Both ways keep the order.  A text of fewer
than 2³² lines and units has positions of 32 bits only. -/
theorem positions_round (t : Text) :
    (∀ n, IsGreatest {b | b ≤ min n t.bytes ∧ t.IsFirm b} (t.offsetOf (t.positionOf n))) ∧
    (∀ p, t.IsFirm (t.offsetOf p) ∧ t.offsetOf (t.positionOf (t.offsetOf p)) = t.offsetOf p) ∧
    (∀ m n, m ≤ n → (t.positionOf m).le (t.positionOf n) = true) ∧
    (∀ p q : Position, p.le q = true → t.offsetOf p ≤ t.offsetOf q) ∧
    (t.lines.length < UInt32.size → t.units < UInt32.size →
      ∀ n, (t.positionOf n).narrow = t.positionOf n) := by
  refine ⟨isGreatest_offsetOf_positionOf t, fun p => ?_, fun m n => positionOf_mono t,
    fun p q => offsetOf_mono t, fun hlines hunits => narrow_positionOf hlines hunits⟩
  have hfirm := isFirm_offsetOf t p
  exact ⟨hfirm, offsetOf_positionOf hfirm⟩

/-- An offset between a carriage return and a line feed, one in a character of four bytes, and a
column that the line does not have. -/
theorem positions_round_mixedEndings :
    let t : Text := "a\r\n😀\rb".toList
    IsGreatest {b | b ≤ 2 ∧ t.IsFirm b} 1 ∧ IsGreatest {b | b ≤ 5 ∧ t.IsFirm b} 3 ∧
      2 ≤ 5 ∧ (t.positionOf 2).le (t.positionOf 5) = true ∧
      (⟨0, 7⟩ : Position).le ⟨1, 1⟩ = true ∧ t.offsetOf ⟨0, 7⟩ ≤ t.offsetOf ⟨1, 1⟩ ∧
      t.lines.length < UInt32.size ∧ t.units < UInt32.size ∧ (t.positionOf 5).narrow = t.positionOf 5 := by
  intro t
  obtain ⟨hround, -, hposition, hoffset, hnarrow⟩ := positions_round t
  have hlines : t.lines.length < UInt32.size := by decide
  have hunits : t.units < UInt32.size := by decide
  exact ⟨hround 2, hround 5, by decide, hposition 2 5 (by decide), by decide,
    hoffset ⟨0, 7⟩ ⟨1, 1⟩ (by decide), hlines, hunits, hnarrow hlines hunits 5⟩

end Text

end RouteScript
