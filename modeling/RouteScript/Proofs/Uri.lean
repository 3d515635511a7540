import RouteScript.Proofs.Utf8
import RouteScript.Uri

/-!
# Canonical URIs

The URI of a file spells the path so that the path can be read back, so bringing it to its
canonical form changes nothing.

* `unescape_escape`: a path text is read back from its escaped form.
* `canonical_ofPath`, `canonical_canonical`: the URIs under which documents are stored are canonical.
-/

namespace RouteScript.Uri

theorem hexValue?_hexDigit {n : Nat} (h : n < 16) : hexValue? (hexDigit n) = some n := by
  revert n
  decide

theorem unescapeBytes_escapeByte (b : UInt8) (t : Text) :
    unescapeBytes (escapeByte b ++ t) = b :: unescapeBytes t := by
  have hb : b.toNat < 256 := UInt8.toNat_lt b
  have hd : b.toNat / 16 * 16 + b.toNat % 16 = b.toNat := by omega
  show unescapeBytes ('%' :: hexDigit (b.toNat / 16) :: hexDigit (b.toNat % 16) :: t) = _
  rw [unescapeBytes, hexValue?_hexDigit (by omega), hexValue?_hexDigit (by omega)]
  simp only [hd, UInt8.ofNat_toNat]

theorem unescapeBytes_flatMap_escapeByte (bs : List UInt8) (t : Text) :
    unescapeBytes (bs.flatMap escapeByte ++ t) = bs ++ unescapeBytes t := by
  induction bs with
  | nil => rfl
  | cons b bs ih =>
    rw [List.flatMap_cons, List.append_assoc, unescapeBytes_escapeByte, ih, List.cons_append]

theorem unescapeBytes_cons_of_ne {c : Char} (h : c ≠ '%') (t : Text) :
    unescapeBytes (c :: t) = String.utf8EncodeChar c ++ unescapeBytes t := by
  rw [unescapeBytes]
  rintro a b t' rfl
  exact absurd rfl h

theorem unescapeBytes_escapeChar (c : Char) (t : Text) :
    unescapeBytes (escapeChar c ++ t) = String.utf8EncodeChar c ++ unescapeBytes t := by
  unfold escapeChar
  split
  · rename_i h
    refine unescapeBytes_cons_of_ne ?_ t
    rintro rfl
    exact absurd h (by decide)
  · exact unescapeBytes_flatMap_escapeByte ..

theorem unescapeBytes_escape (t : Text) : unescapeBytes (escape t) = Utf8.encode t := by
  induction t with
  | nil => rfl
  | cons c t ih =>
    rw [escape, List.flatMap_cons, unescapeBytes_escapeChar, ← escape, ih]
    rfl

/-- A path text is read back from its escaped form. -/
theorem unescape_escape (t : Text) : unescape (escape t) = t := by
  rw [unescape, unescapeBytes_escape, Utf8.decodeLossy_encode]

/-- A text with slashes for backslashes. -/
def slashed (t : Text) : Text := t.map fun c => if c = '\\' then '/' else c

theorem slashed_of_notMem {t : Text} (h : '\\' ∉ t) : slashed t = t := by
  refine (List.map_congr_left fun c hc => if_neg ?_).trans (List.map_id t)
  rintro rfl
  exact h hc

/-- The path text that the URI of a file spells: with slashes for backslashes, and starting with
one. -/
def spelled (p : Path) : Text :=
  let slashed := p.text.map fun c => if c = '\\' then '/' else c
  if (escape slashed).head? = some '/' then slashed else '/' :: slashed

theorem ofPath_eq (p : Path) : ofPath p = String.ofList (fileScheme ++ escape (spelled p)) := by
  unfold ofPath spelled
  simp only
  split <;> rfl

theorem head?_escape_spelled (p : Path) : (escape (spelled p)).head? = some '/' := by
  unfold spelled
  simp only
  split
  · assumption
  · rfl

theorem spelled_spelled (p : Path) : spelled ⟨spelled p⟩ = spelled p := by
  have hm : '\\' ∉ p.text.map fun c => if c = '\\' then '/' else c := fun h => by
    obtain ⟨c, -, hc⟩ := List.mem_map.1 h
    split at hc
    · exact absurd hc (by decide)
    · contradiction
  have hb : '\\' ∉ spelled p := by
    unfold spelled
    simp only
    split
    · exact hm
    · simpa using hm
  have hs : (spelled p).map (fun c => if c = '\\' then '/' else c) = spelled p :=
    slashed_of_notMem hb
  rw [spelled]
  simp only [hs, head?_escape_spelled, if_true]

theorem stripFront?_ofPath (p : Path) :
    Text.stripFront? fileScheme (ofPath p).toList = some (escape (spelled p)) := by
  rw [ofPath_eq, String.toList_ofList]
  exact Text.stripFront?_eq_some_iff.2 rfl

theorem canonical_ofPath (p : Path) : canonical (ofPath p) = ofPath p := by
  obtain ⟨rest, he⟩ : ∃ rest, escape (spelled p) = '/' :: rest :=
    List.head?_eq_some_iff.1 (head?_escape_spelled p)
  unfold canonical
  rw [stripFront?_ofPath, he]
  show ofPath ⟨unescape ('/' :: rest)⟩ = ofPath p
  rw [← he, unescape_escape, ofPath_eq, ofPath_eq, spelled_spelled]

/-- Bringing a URI to its canonical form a second time changes nothing. -/
theorem canonical_canonical (uri : String) : canonical (canonical uri) = canonical uri := by
  cases h : Text.stripFront? fileScheme uri.toList with
  | none => simp [canonical, h]
  | some rest =>
    cases rest with
    | nil => simp [canonical, h]
    | cons c rest =>
      by_cases hc : c = '/'
      · subst hc
        have : canonical uri = ofPath ⟨unescape ('/' :: rest)⟩ := by simp [canonical, h]
        rw [this, canonical_ofPath]
      · have : canonical uri = uri := by
          unfold canonical
          rw [h]
          split
          · rename_i hr
            cases hr
            exact absurd rfl hc
          · rfl
        rw [this, this]

end RouteScript.Uri
