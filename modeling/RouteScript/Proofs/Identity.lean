import RouteScript.Proofs.ScanSafety

/-!
# The identity of variables

The key of a variable is its class, with a colon and the payload behind it if there is one.  A payload
may be any text, but there is no colon in a class, whichever form it is read from.  So the first colon
of a key is where the class ends, and a key without one has no payload.

* `key_eq_ofList`, `eq_of_append_eq`: what a key is made of, and that it comes apart in one way only.
* `key_faithful`: keys are equal exactly if class and payload are, however the variables are written.
-/

namespace RouteScript.PseudoVar

/-! ### The parts of a key -/

/-- What stands behind the class in a key. -/
def keyTail : Option Text → Text
  | none => []
  | some inner => ':' :: inner

theorem keyTail_injective : Function.Injective keyTail := by
  intro a b h
  cases a <;> cases b <;> simp_all [keyTail]

theorem key_eq_ofList (v : PseudoVar) : v.key = String.ofList (v.cls ++ keyTail v.inner) := by
  unfold key className
  cases v.inner with
  | none => rw [keyTail, List.append_nil]
  | some inner => rfl

theorem takeWhile_append_keyTail {cls : Text} (h : ':' ∉ cls) (inner : Option Text) :
    (cls ++ keyTail inner).takeWhile (· != ':') = cls := by
  have hcls : ∀ c ∈ cls, (c != ':') = true := by
    intro c hc
    rw [bne_iff_ne]
    rintro rfl
    exact h hc
  rw [List.takeWhile_append_of_pos hcls]
  cases inner with
  | none => exact List.append_nil cls
  | some inner => exact List.append_nil cls

/-- A class without colons ends at the first colon of the key, if there is one. -/
theorem eq_of_append_eq {cls cls' : Text} {inner inner' : Option Text} (h : ':' ∉ cls)
    (h' : ':' ∉ cls') (he : cls ++ keyTail inner = cls' ++ keyTail inner') :
    cls = cls' ∧ inner = inner' := by
  have hcls : cls = cls' := by
    rw [← takeWhile_append_keyTail h inner, he, takeWhile_append_keyTail h' inner']
  subst hcls
  exact ⟨rfl, keyTail_injective (List.append_cancel_left he)⟩

/-! ### What the scanner finds -/

theorem colon_notMem_cls {t : Text} {v : PseudoVar} (hv : v ∈ scan t) : ':' ∉ v.cls := by
  intro hc
  have hword := ((stands_of_mem_scan hv).identifier.chars ':' hc).1
  exact absurd hword (by decide)

/-- **Keys are faithful.**  Of any two variables found in any texts the keys are equal exactly if the
classes are equal and so are the payloads, where a missing payload is equal to a missing one only.
Two spellings of one variable, each standing alone, are found under one key, whatever the forms and
the subscripts. -/
theorem key_faithful :
    (∀ s t, ∀ p ∈ scan s, ∀ q ∈ scan t, p.key = q.key ↔ p.cls = q.cls ∧ p.inner = q.inner) ∧
    ∀ used used' f g, Matches used f → Matches used' g → f.rest = [] → g.rest = [] →
      f.cls = g.cls → f.inner = g.inner →
      ∃ k, (scan ('$' :: used)).map key = [k] ∧ (scan ('$' :: used')).map key = [k] := by
  refine ⟨fun s t p hp q hq => ?_, fun used used' f g hf hg hfr hgr hcls hinner => ?_⟩
  · rw [key_eq_ofList, key_eq_ofList, String.ofList_inj]
    constructor
    · exact eq_of_append_eq (colon_notMem_cls hp) (colon_notMem_cls hq)
    · rintro ⟨hcls, hinner⟩
      rw [hcls, hinner]
  · refine ⟨String.ofList (f.cls ++ keyTail f.inner), ?_, ?_⟩
    · rw [scan_form hf hfr, List.map_singleton, key_eq_ofList]
    · rw [scan_form hg hgr, List.map_singleton, key_eq_ofList, hcls, hinner]

/-- A payload with a colon is not taken for a class, a missing payload not for an empty one, and an alias
is the class it stands for with a subscript. -/
theorem key_faithful_colons :
    let colons : PseudoVar := ⟨"$a(b:c)".toList, ['a'], some "b:c".toList, none, 0⟩
    let bare : PseudoVar := ⟨"$a".toList, ['a'], none, none, 0⟩
    let empty : PseudoVar := ⟨"$a()".toList, ['a'], some [], none, 3⟩
    colons ∈ scan "$a(b:c)".toList ∧ bare ∈ scan "$a $a()".toList ∧ empty ∈ scan "$a $a()".toList ∧
      colons.key ≠ bare.key ∧ bare.key ≠ empty.key ∧
      Matches "@ruri.user".toList ⟨"sel".toList, some "ruri.user".toList, none, []⟩ ∧
      Matches "(sel(ruri.user)[0])".toList ⟨"sel".toList, some "ruri.user".toList, some ['0'], []⟩ ∧
      ∃ k, (scan "$@ruri.user".toList).map key = [k] ∧
        (scan "$(sel(ruri.user)[0])".toList).map key = [k] := by
  intro colons bare empty
  obtain ⟨hkeys, hspellings⟩ := key_faithful
  have hcolons : colons ∈ scan "$a(b:c)".toList := by decide
  have hbare : bare ∈ scan "$a $a()".toList := by decide
  have hempty : empty ∈ scan "$a $a()".toList := by decide
  have halias : Matches "@ruri.user".toList ⟨"sel".toList, some "ruri.user".toList, none, []⟩ :=
    form?_eq_some_iff.1 (by decide)
  have hclass : Matches "(sel(ruri.user)[0])".toList
      ⟨"sel".toList, some "ruri.user".toList, some ['0'], []⟩ := form?_eq_some_iff.1 (by decide)
  refine ⟨hcolons, hbare, hempty, fun h => ?_, fun h => ?_, halias, hclass, ?_⟩
  · exact absurd ((hkeys _ _ _ hcolons _ hbare).1 h).2 (by decide)
  · exact absurd ((hkeys _ _ _ hbare _ hempty).1 h).2 (by decide)
  · exact hspellings _ _ _ _ halias hclass rfl rfl rfl rfl

end RouteScript.PseudoVar
