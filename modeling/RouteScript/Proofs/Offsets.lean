import RouteScript.Proofs.Utf8
import RouteScript.Text.Position

/-!
# Offsets between characters

An offset between two characters cuts a text in two, and its UTF-8 form at the same place.

* `isBoundary_iff`: the offsets between characters are the sizes of the front parts.
* `isBoundary_offsetOf`: a position names such an offset.
* `encode_takeBytes`, `encode_dropBytes`: cutting the text is cutting its bytes.
-/

namespace RouteScript.Text

/-- An offset is between characters if it is the size of a front part. -/
theorem isBoundary_iff {t : Text} {n : Nat} :
    t.isBoundary n = true ↔ ∃ front rest, t = front ++ rest ∧ bytes front = n := by
  induction t generalizing n with
  | nil =>
    cases n with
    | zero => exact ⟨fun _ => ⟨[], [], rfl, rfl⟩, fun _ => rfl⟩
    | succ n =>
      constructor
      · intro h
        cases h
      · rintro ⟨front, rest, ht, hn⟩
        rw [(List.nil_eq_append_iff.1 ht).1] at hn
        cases hn
  | cons c t ih =>
    cases n with
    | zero => exact ⟨fun _ => ⟨[], c :: t, rfl, rfl⟩, fun _ => rfl⟩
    | succ n =>
      rw [isBoundary, Bool.and_eq_true, decide_eq_true_eq, ih]
      swap
      · exact Nat.succ_ne_zero n
      constructor
      · rintro ⟨hc, front, rest, rfl, hn⟩
        refine ⟨c :: front, rest, rfl, ?_⟩
        rw [bytes_cons]
        omega
      · rintro ⟨front, rest, ht, hn⟩
        cases front with
        | nil => cases hn
        | cons d front =>
          obtain ⟨rfl, rfl⟩ := List.cons_eq_cons.1 ht
          rw [bytes_cons] at hn
          exact ⟨by omega, front, rest, rfl, by omega⟩

theorem takeBytes_bytes_append (front rest : Text) :
    takeBytes (bytes front) (front ++ rest) = front := by
  induction front with
  | nil =>
    cases rest with
    | nil => rfl
    | cons c rest =>
      have := c.utf8Size_pos
      rw [List.nil_append, takeBytes, if_neg (by rw [bytes_nil]; omega)]
  | cons c front ih =>
    rw [List.cons_append, takeBytes, bytes_cons, if_pos (Nat.le_add_right ..),
      Nat.add_sub_cancel_left, ih]

theorem dropBytes_bytes_append (front rest : Text) :
    dropBytes (bytes front) (front ++ rest) = rest := by
  have h := takeBytes_append_dropBytes (bytes front) (front ++ rest)
  rw [takeBytes_bytes_append] at h
  exact List.append_cancel_left h

/-- The text at the span of a part is the part. -/
theorem slice_append_append (front body rest : Text) :
    slice (front ++ (body ++ rest)) ⟨bytes front, bytes (front ++ body)⟩ = body := by
  have hsize : bytes (front ++ body) - bytes front = bytes body := by
    rw [bytes_append, Nat.add_sub_cancel_left]
  rw [slice, Span.size, hsize, dropBytes_bytes_append, takeBytes_bytes_append]

theorem bytes_pos {t : Text} (h : t ≠ []) : 0 < bytes t := by
  obtain ⟨c, t, rfl⟩ := List.exists_cons_of_ne_nil h
  exact Nat.add_pos_left c.utf8Size_pos _

theorem bytes_le_of_isBoundary {t : Text} {n : Nat} (h : t.isBoundary n = true) : n ≤ bytes t := by
  obtain ⟨front, rest, rfl, rfl⟩ := isBoundary_iff.1 h
  rw [bytes_append]
  exact Nat.le_add_right ..

/-- Of two front parts of a text, the smaller one is a front part of the other. -/
theorem exists_append_of_bytes_le {a b c d : Text} (h : a ++ b = c ++ d) (hle : bytes a ≤ bytes c) :
    ∃ g, c = a ++ g ∧ b = g ++ d := by
  rcases List.append_eq_append_iff.1 h with ⟨g, hc, hb⟩ | ⟨g, ha, hd⟩
  · exact ⟨g, hc, hb⟩
  · cases g with
    | nil =>
      rw [List.append_nil] at ha
      exact ⟨[], by rw [ha, List.append_nil], hd.symm⟩
    | cons x g =>
      have := x.utf8Size_pos
      rw [ha, bytes_append, bytes_cons] at hle
      omega

/-- The text at two spans that follow one another is that at both together. -/
theorem slice_append_slice {t : Text} {a b c : Nat} (ha : t.isBoundary a = true)
    (hb : t.isBoundary b = true) (hc : t.isBoundary c = true) (hab : a ≤ b) (hbc : b ≤ c) :
    t.slice ⟨a, b⟩ ++ t.slice ⟨b, c⟩ = t.slice ⟨a, c⟩ := by
  obtain ⟨x, rest, rfl, rfl⟩ := isBoundary_iff.1 ha
  obtain ⟨y, rest', hy, rfl⟩ := isBoundary_iff.1 hb
  obtain ⟨first, rfl, rfl⟩ := exists_append_of_bytes_le hy hab
  obtain ⟨z, rest'', hz, rfl⟩ := isBoundary_iff.1 hc
  obtain ⟨second, rfl, rfl⟩ := exists_append_of_bytes_le (hy.symm.trans hz) hbc
  have hsecond := slice_append_append (x ++ first) second rest''
  have hboth := slice_append_append x (first ++ second) rest''
  rw [List.append_assoc x] at hsecond
  rw [List.append_assoc first, ← List.append_assoc x first second] at hboth
  rw [slice_append_append, hsecond, hboth]

/-- The offset behind an offset between characters, as seen from there. -/
theorem isBoundary_dropBytes {t : Text} {p q : Nat} (hp : t.isBoundary p = true)
    (hq : t.isBoundary q = true) (hpq : p ≤ q) : (t.dropBytes p).isBoundary (q - p) = true := by
  obtain ⟨a, b, rfl, rfl⟩ := isBoundary_iff.1 hp
  obtain ⟨c, d, h, rfl⟩ := isBoundary_iff.1 hq
  obtain ⟨g, rfl, rfl⟩ := exists_append_of_bytes_le h hpq
  rw [dropBytes_bytes_append, bytes_append, Nat.add_sub_cancel_left]
  exact isBoundary_iff.2 ⟨g, d, rfl, rfl⟩

/-! ### Positions -/

theorem exists_takeUnits_append (n : Nat) (t : Text) : ∃ rest, t = takeUnits n t ++ rest := by
  induction t generalizing n with
  | nil => exact ⟨[], rfl⟩
  | cons c t ih =>
    rw [takeUnits]
    split
    · obtain ⟨rest, h⟩ := ih (n - unitSize c)
      exact ⟨rest, by rw [List.cons_append, ← h]⟩
    · exact ⟨c :: t, rfl⟩

theorem isBoundary_offsetIn (ls : List Line) (line column : Nat) :
    isBoundary (ls.map Line.toText).flatten (offsetIn ls line column) = true := by
  rw [isBoundary_iff]
  induction ls generalizing line with
  | nil => exact ⟨[], [], rfl, rfl⟩
  | cons l ls ih =>
    rw [List.map_cons, List.flatten_cons]
    cases line with
    | zero =>
      obtain ⟨rest, h⟩ := exists_takeUnits_append column l.body
      refine ⟨takeUnits column l.body, rest ++ l.ending ++ (ls.map Line.toText).flatten, ?_, rfl⟩
      rw [List.append_assoc, ← List.append_assoc, ← h, ← List.append_assoc]
      rfl
    | succ line =>
      obtain ⟨front, rest, h, hn⟩ := ih line
      refine ⟨l.toText ++ front, rest, by rw [h, List.append_assoc], ?_⟩
      rw [bytes_append, hn, Line.toText, bytes_append]
      rfl

/-- A position names an offset between characters. -/
theorem isBoundary_offsetOf (t : Text) (p : Position) : t.isBoundary (t.offsetOf p) = true := by
  have h := isBoundary_offsetIn (lines t) p.line p.character
  rwa [flatten_lines] at h

/-! ### Bytes -/

/-- Cutting a text between characters is cutting its bytes. -/
theorem encode_takeBytes {t : Text} {n : Nat} (h : t.isBoundary n = true) :
    Utf8.encode (t.takeBytes n) = (Utf8.encode t).take n := by
  obtain ⟨front, rest, rfl, rfl⟩ := isBoundary_iff.1 h
  rw [takeBytes_bytes_append, Utf8.encode_append, ← Utf8.length_encode, List.take_left]

theorem encode_dropBytes {t : Text} {n : Nat} (h : t.isBoundary n = true) :
    Utf8.encode (t.dropBytes n) = (Utf8.encode t).drop n := by
  obtain ⟨front, rest, rfl, rfl⟩ := isBoundary_iff.1 h
  rw [dropBytes_bytes_append, Utf8.encode_append, ← Utf8.length_encode, List.drop_left]

end RouteScript.Text
