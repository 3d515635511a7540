import RouteScript.Proofs.Forms

/-!
# Scanning part by part

A match says by itself where it ends, and the pass goes on behind it as it would at the start of a
text.  So a text may be scanned in parts that meet at the ends of matches, or in front of them where
there is no dollar sign.

* `Matches.alone`: a form is the same without the text behind it.
* `scan_form`, `scan_matched`: in a form or a match alone, that match is found.
* `scanFrom_behind`: behind a match, the matches of the rest are found.
* `scan_decomposes`: all of this for the scanner.
-/

namespace RouteScript.PseudoVar

/-- The match as found in a text that starts `n` bytes further in front. -/
def moveBy (n : Nat) (v : PseudoVar) : PseudoVar := { v with offset := n + v.offset }

/-! ### A form alone -/

theorem IsWord.congr {word rest rest' : Text} (h : IsWord word rest)
    (hr : rest'.head? = rest.head?) : IsWord word rest' :=
  ⟨h.start, h.chars, fun c hc => h.maximal c (hr ▸ hc)⟩

theorem Subscript.alone {t rest : Text} {index : Option Text} (h : Subscript t index (')' :: rest)) :
    ∃ t', t = t' ++ rest ∧ t'.head? = t.head? ∧ Subscript t' index [')'] := by
  cases h with
  | missing => exact ⟨[')'], rfl, rfl, .missing _⟩
  | @given index _ hi => exact ⟨'[' :: (index ++ [']', ')']), by simp, rfl, .given hi⟩

theorem Payload.alone {t t₁ rest : Text} {inner : Option Text} (h : Payload t inner (t₁ ++ rest))
    (hne : t₁ ≠ []) : ∃ t', t = t' ++ rest ∧ t'.head? = t.head? ∧ Payload t' inner t₁ := by
  cases h with
  | missing => exact ⟨t₁, rfl, (List.head?_append_of_ne_nil _ hne).symm, .missing _⟩
  | @given inner _ hi => exact ⟨'(' :: (inner ++ ')' :: t₁), by simp, rfl, .given hi⟩

theorem Bracketed.alone {t : Text} {f : Form} (h : Bracketed t f) :
    ∃ used, t = used ++ f.rest ∧ Bracketed used { f with rest := [] } := by
  cases h with
  | @mk cls _ _ rest _ _ hw hp hs =>
    obtain ⟨t₁, rfl, -, hs'⟩ := hs.alone
    have hne : t₁ ≠ [] := by
      rintro rfl
      cases hs'
    obtain ⟨t₂, rfl, hhead, hp'⟩ := hp.alone hne
    exact ⟨'(' :: (cls ++ t₂), by simp, .mk (hw.congr hhead) hp' hs'⟩

theorem Named.alone {t : Text} {f : Form} (h : Named t f) :
    ∃ used, t = used ++ f.rest ∧ Named used { f with rest := [] } := by
  cases h with
  | @full cls inner rest hw hi =>
    exact ⟨cls ++ '(' :: (inner ++ [')']), by simp, .full (hw.congr rfl) hi⟩
  | @bare cls rest hw _ =>
    -- nothing is opened behind a class that stands alone
    have hword : IsWord cls [] := ⟨hw.start, hw.chars, fun c hc => by cases hc⟩
    have hnamed := Named.bare hword fun inner rest' _ he => by cases he
    rw [List.append_nil] at hnamed
    exact ⟨cls, rfl, hnamed⟩

theorem SelectAlias.alone {t : Text} {f : Form} (h : SelectAlias t f) :
    ∃ used, t = used ++ f.rest ∧ SelectAlias used { f with rest := [] } := by
  cases h with
  | @mk path rest hne hpath _ =>
    have halias : SelectAlias ('@' :: (path ++ [])) ⟨['s', 'e', 'l'], some path, none, []⟩ :=
      .mk hne hpath fun c hc => by cases hc
    rw [List.append_nil] at halias
    exact ⟨'@' :: path, rfl, halias⟩

/-- A form is the same without the text behind it. -/
theorem Matches.alone {used : Text} {f : Form} (h : Matches (used ++ f.rest) f) :
    Matches used { f with rest := [] } := by
  rcases h with h | h | h
  · obtain ⟨used', he, h'⟩ := h.alone
    rw [List.append_cancel_right he]
    exact .inl h'
  · obtain ⟨used', he, h'⟩ := h.alone
    rw [List.append_cancel_right he]
    exact .inr (.inl h')
  · obtain ⟨used', he, h'⟩ := h.alone
    rw [List.append_cancel_right he]
    exact .inr (.inr h')

/-- A form with nothing behind it is one match. -/
theorem scan_form {used : Text} {f : Form} (h : Matches used f) (hr : f.rest = []) :
    scan ('$' :: used) = [⟨'$' :: used, f.cls, f.inner, f.index, 0⟩] := by
  have hm : Matches (used ++ f.rest) f := by rwa [hr, List.append_nil]
  have hscan := scanFrom_form hm.head?_ne_dollar (form?_eq_some_iff.2 hm) 0
  rw [hr, List.append_nil] at hscan
  exact hscan

/-- In a match alone, that match is found. -/
theorem scan_matched {t : Text} {v : PseudoVar} (hv : v ∈ scan t) :
    scan v.matched = [{ v with offset := 0 }] := by
  obtain ⟨p, used, f, rfl, -, hm, -⟩ := mem_scanFrom_iff.1 hv
  have hscan := scan_form hm.alone rfl
  exact hscan

/-! ### In front of a match and behind it -/

/-- Text without dollar signs moves the matches behind it. -/
theorem scanFrom_append_of_notMem {a : Text} (ha : '$' ∉ a) (offset : Nat) (t : Text) :
    scanFrom 0 offset (a ++ t) = scanFrom 0 (offset + a.bytes) t := by
  induction a generalizing offset with
  | nil => rfl
  | cons c a ih =>
    rw [List.mem_cons, not_or] at ha
    rw [List.cons_append, scanFrom_plain (Ne.symm ha.1), ih ha.2, Text.bytes_cons, Nat.add_assoc]

/-- Behind a match the pass goes on with the rest of the text. -/
theorem scanFrom_behind {t : Text} {offset i : Nat} {v : PseudoVar}
    (h : (scanFrom 0 offset t)[i]? = some v) :
    ∃ front rest, t = front ++ rest ∧ offset + front.bytes = v.offset + v.size ∧
      (scanFrom 0 offset t).drop (i + 1) = scanFrom 0 (v.offset + v.size) rest := by
  induction t using scan_induction generalizing offset i with
  | nil => cases h
  | plain c t hc ih =>
    rw [scanFrom_plain hc] at h ⊢
    obtain ⟨front, rest, rfl, hstop, hrest⟩ := ih h
    exact ⟨c :: front, rest, rfl, by rw [Text.bytes_cons, ← Nat.add_assoc, hstop], hrest⟩
  | pair t ih =>
    rw [scanFrom_pair] at h ⊢
    obtain ⟨front, rest, rfl, hstop, hrest⟩ := ih h
    refine ⟨'$' :: '$' :: front, rest, rfl, ?_, hrest⟩
    rw [← hstop]
    simp only [Text.bytes_cons, utf8Size_dollar]
    omega
  | lone t ht hf ih =>
    rw [scanFrom_lone ht hf] at h ⊢
    obtain ⟨front, rest, rfl, hstop, hrest⟩ := ih h
    refine ⟨'$' :: front, rest, rfl, ?_, hrest⟩
    rw [Text.bytes_cons, utf8Size_dollar, ← Nat.add_assoc, hstop]
  | form used f ht hf _ ih =>
    rw [scanFrom_form ht hf] at h ⊢
    cases i with
    | zero =>
      cases h
      refine ⟨'$' :: used, f.rest, rfl, rfl, ?_⟩
      rw [List.drop_succ_cons, List.drop_zero, size, Text.bytes_cons, utf8Size_dollar,
        ← Nat.add_assoc]
    | succ i =>
      rw [List.getElem?_cons_succ] at h
      obtain ⟨front, rest, he, hstop, hrest⟩ := ih h
      refine ⟨'$' :: (used ++ front), rest, by simp [he], ?_, hrest⟩
      rw [← hstop, Text.bytes_cons, Text.bytes_append, utf8Size_dollar]
      omega

/-! ### The parts of a scan -/

theorem scanFrom_eq_map_moveBy (n : Nat) (t : Text) : scanFrom 0 n t = (scan t).map (moveBy n) :=
  scanFrom_add n 0 t

/-- **Scanning decomposes at the ends of matches.**  In a match alone, the same match is found at the
start and nothing else.  In the text from the end of a match on, the matches behind it are found,
each as far in front as that end is from the start.  Text without dollar signs in front only moves
what is found. -/
theorem scan_decomposes (t : Text) :
    (∀ i v, (scan t)[i]? = some v →
      scan v.matched = [{ v with offset := 0 }] ∧
      (scan t).drop (i + 1) = (scan (t.dropBytes v.span.stop)).map (moveBy v.span.stop)) ∧
    ∀ a : Text, '$' ∉ a → scan (a ++ t) = (scan t).map (moveBy a.bytes) := by
  refine ⟨fun i v h => ⟨scan_matched (List.mem_of_getElem? h), ?_⟩, fun a ha => ?_⟩
  · obtain ⟨front, rest, rfl, hstop, hrest⟩ := scanFrom_behind h
    rw [Nat.zero_add] at hstop
    rw [← scanFrom_eq_map_moveBy, span, ← hstop, Text.dropBytes_bytes_append, hstop]
    exact hrest
  · rw [← scanFrom_eq_map_moveBy]
    exact (scanFrom_append_of_notMem ha 0 t).trans (by rw [Nat.zero_add])

/-- A class whose payload is not closed, with a match behind it. -/
theorem scan_decomposes_unclosed :
    let t : Text := "$f(g $(a(b)[0])".toList
    let v : PseudoVar := ⟨['$', 'f'], ['f'], none, none, 0⟩
    (scan t)[0]? = some v ∧ scan v.matched = [v] ∧
      (scan t).drop 1 = (scan "(g $(a(b)[0])".toList).map (moveBy 2) ∧
      '$' ∉ "ü(".toList ∧ scan ("ü(".toList ++ t) = (scan t).map (moveBy 3) := by
  intro t v
  obtain ⟨hparts, hfront⟩ := scan_decomposes t
  have hfound : (scan t)[0]? = some v := by decide
  obtain ⟨halone, hrest⟩ := hparts 0 v hfound
  have hplain : '$' ∉ "ü(".toList := by decide
  exact ⟨hfound, halone, hrest, hplain, hfront "ü(".toList hplain⟩

end RouteScript.PseudoVar
