import Mathlib.Data.List.TakeWhile
import RouteScript.Analysis.Answer
import RouteScript.Proofs.PathSpelling

/-!
# The keys of local files

Reading a URI accepts every text: escapes in either case, characters that needed one and have none, a
`%` that starts no escape, and bytes that are not UTF-8.  Writing one escapes all bytes that may not
stand in the path of a URI, `%` among them.  So what is written can be read back, and writing what was
read is a normal form of URIs.

* `PathText`, `pathText_escape`: the texts that may be the path of a URI, and that escaping gives one.
* `isReference_file`, `exists_pathText_ofPath`: the URI of a path is a URI.
* `unescape_cons_of_ne`, `spelled_of_absolute`: what a URI of a local file is read as, and written as.
* `uriKeys_canonical`: these for all paths and all URIs of local files.
-/

namespace RouteScript.Uri

/-! ### The path of a URI -/

/-- A character that stands for itself in the path of a URI, or the slash between two segments. -/
def IsSegmentChar (c : Char) : Prop :=
  isUnreserved c = true ∨ isSubDelim c = true ∨ c = ':' ∨ c = '@' ∨ c = '/'

/-- A text of such characters and of percent escapes. -/
inductive PathText : Text → Prop
  | nil : PathText []
  | char {c : Char} {t : Text} : IsSegmentChar c → PathText t → PathText (c :: t)
  | escape {a b : Char} {t : Text} :
    (hexValue? a).isSome = true → (hexValue? b).isSome = true → PathText t →
      PathText ('%' :: a :: b :: t)

theorem isPathChar_iff {c : Char} : isPathChar c = true ↔ IsSegmentChar c := by
  have htable : "-._~!$&'()*+,;=:@/".toList =
      "-._~".toList ++ "!$&'()*+,;=".toList ++ [':', '@', '/'] := by decide
  simp only [isPathChar, IsSegmentChar, isUnreserved, isSubDelim, htable, Bool.or_eq_true,
    List.contains_iff_mem, List.mem_append, List.mem_cons, List.not_mem_nil, or_false, or_assoc]

theorem PathText.append {s t : Text} (hs : PathText s) (ht : PathText t) : PathText (s ++ t) := by
  induction hs with
  | nil => exact ht
  | char hc _ ih => exact .char hc ih
  | escape ha hb _ ih => exact .escape ha hb ih

theorem pathText_escapeByte (b : UInt8) : PathText (escapeByte b) := by
  have hb : b.toNat < 256 := UInt8.toNat_lt b
  refine .escape ?_ ?_ .nil
  · rw [hexValue?_hexDigit (by omega), Option.isSome_some]
  · rw [hexValue?_hexDigit (by omega), Option.isSome_some]

theorem pathText_flatMap {α : Type} {f : α → Text} (h : ∀ a, PathText (f a)) (l : List α) :
    PathText (l.flatMap f) := by
  induction l with
  | nil => exact .nil
  | cons a l ih =>
    rw [List.flatMap_cons]
    exact (h a).append ih

/-- Escaping a text gives one that may be the path of a URI. -/
theorem pathText_escape (t : Text) : PathText (escape t) := by
  refine pathText_flatMap (fun c => ?_) t
  unfold escapeChar
  split
  · rename_i hc
    exact .char (isPathChar_iff.1 hc) .nil
  · exact pathText_flatMap pathText_escapeByte _

theorem PathText.isPathText {t : Text} (h : PathText t) : isPathText t = true := by
  unfold Uri.isPathText
  induction h with
  | nil => rfl
  | @char c t hc _ ih =>
    have hne : c ≠ '%' := by
      rintro rfl
      exact absurd (isPathChar_iff.2 hc) (by decide)
    rw [escapedBy, ih, isPathChar_iff.2 hc, bne_iff_ne.2 hne]
    · rfl
    · rintro a b t' rfl
      exact absurd rfl hne
  | escape ha hb _ ih => rw [escapedBy, ha, hb, ih]; rfl

/-- A character that needs an escape is not in the path of a URI, unless it is part of one. -/
theorem PathText.notMem {c : Char} {t : Text} (h : PathText t) (hc : isPathChar c = false)
    (hp : c ≠ '%') (hx : hexValue? c = none) : c ∉ t := by
  have hhex : ∀ {a : Char}, (hexValue? a).isSome = true → c ≠ a := by
    rintro a ha rfl
    rw [hx] at ha
    cases ha
  induction h with
  | nil => exact List.not_mem_nil
  | @char d t hd _ ih =>
    have hne : c ≠ d := by
      rintro rfl
      rw [isPathChar_iff.2 hd] at hc
      cases hc
    exact List.not_mem_cons_of_ne_of_not_mem hne ih
  | escape ha hb _ ih =>
    refine List.not_mem_cons_of_ne_of_not_mem hp ?_
    exact List.not_mem_cons_of_ne_of_not_mem (hhex ha)
      (List.not_mem_cons_of_ne_of_not_mem (hhex hb) ih)

/-! ### The URI of a path -/

theorem fileScheme_eq : fileScheme = ['f', 'i', 'l', 'e', ':', '/', '/'] := by decide

/-- A part of a URI that starts with the character is missing where the character is. -/
theorem takeWhile_dropWhile_of_notMem {c : Char} {t : Text} (h : c ∉ t) :
    t.takeWhile (· != c) = t ∧ (t.dropWhile (· != c)).drop 1 = [] := by
  have hall : ∀ x ∈ t, (x != c) = true := by
    intro x hx
    rw [bne_iff_ne]
    rintro rfl
    exact h hx
  have htake : t.takeWhile (· != c) = t := List.takeWhile_eq_self_iff.2 hall
  have hdrop : t.dropWhile (· != c) = [] := List.dropWhile_eq_nil_iff.2 hall
  exact ⟨htake, by rw [hdrop]; rfl⟩

/-- A path text behind the scheme, with no host between, makes up a URI. -/
theorem isReference_file {rest : Text} (h : PathText ('/' :: rest)) :
    isReference (String.ofList (fileScheme ++ '/' :: rest)) = true := by
  have hnone : ∀ c, isPathChar c = false → c ≠ '%' → hexValue? c = none → c ∉ fileScheme →
      c ∉ fileScheme ++ '/' :: rest := by
    intro c hc hp hx hf hmem
    rcases List.mem_append.1 hmem with hmem | hmem
    · exact hf hmem
    · exact h.notMem hc hp hx hmem
  obtain ⟨hbody, hfragment⟩ := takeWhile_dropWhile_of_notMem
    (hnone '#' (by decide) (by decide) (by decide) (by decide))
  obtain ⟨hhierarchy, hquery⟩ := takeWhile_dropWhile_of_notMem
    (hnone '?' (by decide) (by decide) (by decide) (by decide))
  have hfirst : (fileScheme ++ '/' :: rest).takeWhile (· != '/') = "file:".toList := by
    rw [fileScheme_eq]
    rfl
  have hscheme : (fileScheme ++ '/' :: rest).takeWhile (· != ':') = "file".toList := by
    rw [fileScheme_eq]
    rfl
  have hbehind : ((fileScheme ++ '/' :: rest).dropWhile (· != ':')).drop 1 =
      '/' :: '/' :: '/' :: rest := by
    rw [fileScheme_eq]
    rfl
  have hcolon : "file:".toList.contains ':' = true := by decide
  have hname : isScheme "file".toList = true := by decide
  have hpath : isHierarchy ('/' :: '/' :: '/' :: rest) = true := h.isPathText
  unfold isReference
  simp only [String.toList_ofList, hbody, hfragment, hhierarchy, hquery, hfirst, hscheme, hbehind,
    hcolon, hname, hpath, if_true]
  rfl

/-- The URI of a path is a path text behind the scheme. -/
theorem exists_pathText_ofPath (p : Path) :
    ∃ rest, ofPath p = String.ofList (fileScheme ++ '/' :: rest) ∧ PathText ('/' :: rest) := by
  obtain ⟨rest, hrest⟩ := List.head?_eq_some_iff.1 (head?_escape_spelled p)
  refine ⟨rest, ?_, ?_⟩
  · rw [ofPath_eq, hrest]
  · rw [← hrest]
    exact pathText_escape _

/-! ### What a URI is read as -/

/-- A character that starts no escape is read as it stands. -/
theorem unescape_cons_of_ne {c : Char} (h : c ≠ '%') (t : Text) :
    unescape (c :: t) = c :: unescape t := by
  rw [unescape, unescapeBytes_cons_of_ne h, Utf8.decodeLossy, Utf8.pieces_encodeChar]
  rfl

/-- An absolute path is spelled with the slashes it has. -/
theorem spelled_of_absolute {p : Path} (h : p.text.head? = some '/') : spelled p = slashed p.text := by
  obtain ⟨rest, hrest⟩ := List.head?_eq_some_iff.1 h
  have hhead : (escape (slashed p.text)).head? = some '/' := by
    rw [hrest]
    rfl
  exact if_pos hhead

theorem locates_of_file {uri : String} {rest : Text} (h : uri.toList = fileScheme ++ '/' :: rest) :
    Locates uri ⟨unescape ('/' :: rest)⟩ := by
  refine ⟨⟨rest, h⟩, ?_⟩
  rw [toPath?, Text.stripFront?_eq_some_iff.2 h]
  rfl

/-- The key of a local file tells its path, once escapes are read and backslashes are slashes. -/
theorem canonical_eq_iff {u v : String} {s t : Text} (hu : u.toList = fileScheme ++ '/' :: s)
    (hv : v.toList = fileScheme ++ '/' :: t) : canonical u = canonical v ↔
      slashed (unescape ('/' :: s)) = slashed (unescape ('/' :: t)) := by
  have hspelled : ∀ rest, spelled ⟨unescape ('/' :: rest)⟩ = slashed (unescape ('/' :: rest)) := by
    intro rest
    refine spelled_of_absolute ?_
    rw [unescape_cons_of_ne (by decide), List.head?_cons]
  rw [canonical_of_locates (locates_of_file hu), canonical_of_locates (locates_of_file hv),
    ofPath_inj, hspelled, hspelled]

/-- **Keys of local files are canonical and reversible.**  An absolute path without backslashes is read
back from its URI as it was.  The URI of any path has behind its scheme only characters that may stand
in a path and well-formed escapes, so no location in such a document is dropped.  Bringing a URI to its
canonical form a second time changes nothing.  URIs of local files, however they are escaped and whatever
they stand for, have the same key exactly if they are read as the same text, but for backslashes that
are slashes in the other. -/
theorem uriKeys_canonical :
    (∀ p : Path, p.text.head? = some '/' → '\\' ∉ p.text → toPath? (ofPath p) = some p) ∧
    (∀ p : Path, (∃ rest, (ofPath p).toList = fileScheme ++ rest ∧ PathText rest) ∧
      ∀ range, Location.of? (ofPath p) range = some ⟨ofPath p, range⟩) ∧
    (∀ uri, canonical (canonical uri) = canonical uri) ∧
    ∀ u v s t, u.toList = fileScheme ++ '/' :: s → v.toList = fileScheme ++ '/' :: t →
      (canonical u = canonical v ↔
        slashed (unescape ('/' :: s)) = slashed (unescape ('/' :: t))) := by
  refine ⟨fun p hroot hplain => ?_, fun p => ?_, canonical_canonical,
    fun u v s t hu hv => canonical_eq_iff hu hv⟩
  · rw [toPath?_ofPath, spelled_of_absolute hroot, slashed_of_notMem hplain]
  · obtain ⟨rest, huri, hpath⟩ := exists_pathText_ofPath p
    refine ⟨⟨'/' :: rest, by rw [huri, String.toList_ofList], hpath⟩, fun range => ?_⟩
    rw [Location.of?, huri, if_pos (isReference_file hpath)]

/-- A path with characters that need escapes is read back.  Lower case in an escape, a character that
has none, an escaped backslash, an escape that is not UTF-8 and a `%` at the end do not make another
file. -/
theorem uriKeys_canonical_mixedEscapes :
    let p : Path := ⟨"/srv/réseau/a#1 %.py".toList⟩
    let s : Text := "w/r%c3%a9%5Ca%ff%".toList
    let t : Text := "w/ré/a%EF%BF%BD%25".toList
    p.text.head? = some '/' ∧ '\\' ∉ p.text ∧ toPath? (ofPath p) = some p ∧
      canonical (String.ofList (fileScheme ++ '/' :: s)) =
        canonical (String.ofList (fileScheme ++ '/' :: t)) := by
  intro p s t
  obtain ⟨hread, -, -, hkeys⟩ := uriKeys_canonical
  have hroot : p.text.head? = some '/' := by decide
  have hplain : '\\' ∉ p.text := by decide
  refine ⟨hroot, hplain, hread p hroot hplain, ?_⟩
  exact (hkeys _ _ s t String.toList_ofList String.toList_ofList).2 (by decide +kernel)

end RouteScript.Uri
