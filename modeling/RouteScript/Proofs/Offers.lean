import RouteScript.Proofs.Occurrences
import RouteScript.Proofs.OpenSubscript
import RouteScript.Proofs.VariableDiagnostics

/-!
# What is offered in a literal

What is being typed is read backwards from the cursor: a word, and in front of it a dollar sign or a
class and its parenthesis.  What is offered is a class of the tables, or a payload with which the
class occurs in a stored document.  It goes on from the word, and with it and what closes it a form
of the scanner stands there.  The scanner reads forwards, though, and comes to the dollar sign with
what stands in front of it: the sign may be escaped, or a subscript may be open that the offer
closes.

* `Typing.Opens`: what stands around the word that is typed.
* `Typing.Fits`: the labels that make a form there.
* `Current.fits_of_mem_offers`: what is offered fits, and goes on from what is typed.
* `offers_run`: after every run, what is offered is found as a variable if and only if the dollar
  sign is not escaped and no subscript reaches over it.
* `offers_escapedClass`: a class is offered behind an escaped dollar sign.
-/

namespace RouteScript

open PseudoVar

/-! ### The parts of a variable that has a payload -/

namespace PseudoVar

variable {t : Text} {f : Form}

theorem notMem_of_isAliasChar {c : Char} {path : Text} (hpath : ∀ c ∈ path, isAliasChar c = true)
    (hc : isAliasChar c = false) : c ∉ path := fun h => by
  rw [hpath c h] at hc
  cases hc

/-- An identifier may be followed by a payload. -/
theorem IsWord.opened {word rest : Text} (h : IsWord word rest) (rest' : Text) :
    IsWord word ('(' :: rest') := ⟨h.start, h.chars, fun c hc => by cases hc; rfl⟩

theorem Matches.isPayload {inner : Text} (h : Matches t f) (hi : f.inner = some inner) :
    IsPayload inner := by
  rcases h with h | h | h
  · cases h with
    | mk _ hp _ =>
      obtain rfl : _ = some inner := hi
      cases hp with
      | given hinner => exact hinner
  · cases h with
    | full _ hinner => exact Option.some.inj hi ▸ hinner
    | bare => cases hi
  · cases h with
    | mk _ hpath _ =>
      obtain rfl := Option.some.inj hi
      exact isPayload_of_notMem (notMem_of_isAliasChar hpath rfl) (notMem_of_isAliasChar hpath rfl)

/-- A payload that was found makes a variable behind the class again. -/
theorem given_of_mem_scan {v : PseudoVar} {inner : Text} (hv : v ∈ scan t)
    (hi : v.inner = some inner) : (∀ rest, IsWord v.cls ('(' :: rest)) ∧ IsPayload inner := by
  obtain ⟨used, f, -, hm, -, -, hcls, hinner, -⟩ := reading_of_mem_scan hv
  obtain ⟨_, hword⟩ := hm.isWord_cls
  rw [hcls]
  exact ⟨hword.opened, hm.isPayload (hinner.symm.trans hi)⟩

end PseudoVar

theorem Category.isWord_of_mem_known {cls : String} {c : Category} (h : (cls, c) ∈ known) :
    IsWord cls.toList [] := by
  have hall : ∀ e ∈ known, word? e.1.toList = some (e.1.toList, []) := by decide +kernel
  exact (word?_eq_some_iff.1 (hall _ h)).2

namespace VariableAnalysis

/-! ### Reading backwards -/

/-- The word that is typed. -/
def Typing.typed : Typing → Text
  | .cls typed | .inner _ typed => typed

/-- The text from the dollar sign to the word that is typed, and the text that closes the variable
behind the word. -/
inductive Typing.Opens : Typing → Text → Text → Prop
  | cls {typed : Text} : Opens (.cls typed) ['$'] []
  | named {cls typed : Text} : Opens (.inner cls typed) ('$' :: (cls ++ ['('])) [')']
  | bracketed {cls typed : Text} :
    Opens (.inner cls typed) ('$' :: '(' :: (cls ++ ['('])) [')', ')']

theorem lastWord_eq (t : Text) :
    t = (lastWord t.reverse).2.reverse ++ (lastWord t.reverse).1.reverse := by
  rw [lastWord, ← List.reverse_append, List.takeWhile_append_dropWhile, List.reverse_reverse]

/-- What is being typed stands at the end of the text. -/
theorem exists_opens {before : Text} {typing : Typing} (h : typing? before = some typing) :
    ∃ pre head closing, typing.Opens head closing ∧ before = pre ++ (head ++ typing.typed) := by
  have hword := lastWord_eq before
  generalize hw : lastWord before.reverse = w at hword
  obtain ⟨word, front⟩ := w
  unfold typing? at h
  rw [hw] at h
  simp only at h hword
  split at h
  · rename_i pre
    cases h
    exact ⟨pre.reverse, ['$'], [], .cls, by simp [hword, Typing.typed]⟩
  · rename_i front
    have hclass := lastWord_eq front.reverse
    rw [List.reverse_reverse] at hclass
    generalize hc : lastWord front = w at h hclass
    obtain ⟨cls, front⟩ := w
    simp only at h hclass
    split at h
    · cases h
    · split at h
      · rename_i pre
        cases h
        exact ⟨pre.reverse, _, _, .named, by simp [hword, hclass, Typing.typed]⟩
      · rename_i pre
        cases h
        exact ⟨pre.reverse, _, _, .bracketed, by simp [hword, hclass, Typing.typed]⟩
      · cases h
  · cases h

/-! ### Labels that fit -/

/-- The label is an identifier where a class is typed, and a payload where one is typed behind an
identifier. -/
def Typing.Fits : Typing → Text → Prop
  | .cls _, label => IsWord label []
  | .inner name _, label => (∀ rest, IsWord name ('(' :: rest)) ∧ IsPayload label

/-- The variable that the label makes of what is typed. -/
def Typing.completed : Typing → (label matched : Text) → (offset : Nat) → PseudoVar
  | .cls _, label, matched, offset => ⟨matched, label, none, none, offset⟩
  | .inner name _, label, matched, offset => ⟨matched, name, some label, none, offset⟩

/-- A label that fits makes a form, and no parenthesis in front of it is closed in it. -/
theorem Typing.Opens.exists_form {typing : Typing} {head closing label : Text}
    (h : typing.Opens head closing) (hl : typing.Fits label) :
    ∃ body f, head ++ (label ++ closing) = '$' :: body ∧ Matches body f ∧ f.rest = [] ∧
      ClosesNothing ('$' :: body) ∧ ∀ matched offset,
        typing.completed label matched offset = ⟨matched, f.cls, f.inner, f.index, offset⟩ := by
  have hclass : ∀ {word rest t : Text}, IsWord word rest → ClosesNothing t →
      ClosesNothing ('$' :: (word ++ t)) := fun hw ht =>
    .dollar (.append (hw.notMem rfl) (hw.notMem rfl) ht)
  cases h with
  | cls =>
    have hm : Named (label ++ []) ⟨label, none, none, []⟩ := .bare hl nofun
    have hc : ClosesNothing ('$' :: (label ++ [])) := hclass hl .nil
    rw [List.append_nil] at hm hc
    exact ⟨label, _, by simp, .inr (.inl hm), rfl, hc, fun _ _ => rfl⟩
  | named =>
    obtain ⟨hcls, hi⟩ := hl
    have hm := Named.full (hcls (label ++ [')'])) hi
    exact ⟨_, _, by simp, .inr (.inl hm), rfl, hclass (hcls []) (.payload hi .nil), fun _ _ => rfl⟩
  | bracketed =>
    obtain ⟨hcls, hi⟩ := hl
    have hm := Bracketed.mk (hcls (label ++ [')', ')'])) (.given hi) (.missing [')'])
    have hc := ClosesNothing.bracketed ((hcls []).notMem rfl) ((hcls []).notMem rfl) hi
    exact ⟨_, _, by simp, .inl hm, rfl, hc.dollar, fun _ _ => rfl⟩

/-- A completed form is found at the end of the text if and only if its dollar sign is not escaped
and no subscript that is open in front of it is closed in it. -/
theorem Typing.Opens.getLast?_scan_iff {typing : Typing} {pre head closing label : Text}
    (h : typing.Opens head closing) (hl : typing.Fits label) :
    (scan (pre ++ (head ++ (label ++ closing)))).getLast? =
        some (typing.completed label (head ++ (label ++ closing)) pre.bytes) ↔
      ¬ Escapes pre ∧ ¬ (LeavesOpen pre ∧ ClosesSubscript (head ++ (label ++ closing))) := by
  obtain ⟨body, f, hbody, hm, hr, hc, hcompleted⟩ := h.exists_form hl
  rw [hcompleted, hbody]
  exact PseudoVar.getLast?_scan_iff hm hr hc

/-! ### What is offered -/

/-- With the label for the word that is typed in front of the place, the literal is `pre` and, from
the dollar sign on, `written`, with what closes the variable. -/
inductive Completes [Python.Recovery] (q : Query) (label : Text) :
    Typing → (pre written : Text) → Prop
  | mk {call : EngineCall} {typing : Typing} {pre head closing : Text} :
    q.engineCall? = some call → q.typed? call = some (pre ++ (head ++ typing.typed)) →
    typing? (pre ++ (head ++ typing.typed)) = some typing → typing.Opens head closing →
      Completes q label typing pre (head ++ (label ++ closing))

/-- What is offered at a place is offered for what is being typed there. -/
theorem exists_completes [Python.Recovery] {k : Knowledge} {q : Query} {item : Completion}
    (h : item ∈ completions k q) : ∃ typing pre head closing, typing.Opens head closing ∧
      item ∈ offers k typing ∧
      Completes q item.label.toList typing pre (head ++ (item.label.toList ++ closing)) := by
  unfold completions at h
  cases hcall : q.engineCall? with
  | none => simp [hcall] at h
  | some call =>
    cases htyped : q.typed? call with
    | none => simp [hcall, htyped] at h
    | some before =>
      cases htyping : typing? before with
      | none => simp [hcall, htyped, htyping] at h
      | some typing =>
        simp only [hcall, htyped, htyping, Option.bind_eq_bind, Option.bind_some,
          Option.getD_some] at h
        obtain ⟨pre, head, closing, hopens, rfl⟩ := exists_opens htyping
        exact ⟨typing, pre, head, closing, hopens, h, .mk hcall htyped htyping hopens⟩

end VariableAnalysis

namespace Knowledge

open VariableAnalysis

variable [Python.Recovery] {view : View} {k : Knowledge}

/-- A payload that is known for a class stands with it in a literal of a stored document. -/
theorem Current.exists_of_mem_innerNames (h : k.Current view) {cls : Text} {name : String}
    (hn : name ∈ (innerNames k cls).keys) :
    ∃ t, ∃ v ∈ scan t, v.cls = cls ∧ v.inner = some name.toList := by
  rw [Table.mem_keys_iff, innerNames, OrdSet.contains_ofList, decide_eq_true_iff] at hn
  obtain ⟨o, ho, hname⟩ := List.mem_filterMap.1 hn
  obtain ⟨index, hindex, ho⟩ := List.mem_flatMap.1 ho
  obtain ⟨uri, hi⟩ := Table.mem_values_iff.1 hindex
  rw [h.get?_indexes] at hi
  obtain ⟨d, -, rfl⟩ := Option.map_eq_some_iff.1 hi
  obtain ⟨call, -, ho⟩ := List.mem_flatMap.1 (VariableIndex.mem_byPosition_ofList.1 ho)
  obtain ⟨hcls, hinner⟩ := Option.ite_none_right_eq_some.1 hname
  obtain ⟨inner, hgiven, rfl⟩ := Option.map_eq_some_iff.1 hinner
  refine ⟨call.content, o.var, (Occurrence.mem_ofCall ho).2.1, beq_iff_eq.1 hcls, ?_⟩
  rw [hgiven, String.toList_ofList]

/-- What is offered fits and goes on from what is typed. -/
theorem Current.fits_of_mem_offers (h : k.Current view) {typing : Typing} {item : Completion}
    (hi : item ∈ offers k typing) :
    typing.Fits item.label.toList ∧ typing.typed <+: item.label.toList := by
  have hstarts : ∀ {typed : Text} {label : String}, startsWith typed label = true →
      typed <+: label.toList := by
    intro typed label hs
    obtain ⟨rest, hrest⟩ := Option.isSome_iff_exists.1 hs
    exact ⟨rest, (Text.stripFront?_eq_some_iff.1 hrest).symm⟩
  cases typing with
  | cls typed =>
    obtain ⟨⟨cls, category⟩, he, rfl⟩ := List.mem_map.1 hi
    obtain ⟨hknown, hs⟩ := List.mem_filter.1 he
    exact ⟨Category.isWord_of_mem_known hknown, hstarts hs⟩
  | inner cls typed =>
    obtain ⟨name, he, rfl⟩ := List.mem_map.1 hi
    obtain ⟨hname, hs⟩ := List.mem_filter.1 he
    obtain ⟨t, v, hv, rfl, hinner⟩ := h.exists_of_mem_innerNames hname
    exact ⟨given_of_mem_scan hv hinner, hstarts hs⟩

end Knowledge

namespace Session

open VariableAnalysis

/-- **What is offered is what the scanner accepts, but for what stands in front.**  After every run,
what is offered goes on from what is typed.  With the text from the dollar sign on and with what
closes the variable, it is the last match if and only if the dollar sign is not escaped and does not
stand in an open subscript that gets closed behind it. -/
theorem offers_run [Python.Recovery] (config : Config) (es : List Event) {q : Query}
    {item : Completion} (h : item ∈ VariableAnalysis.completions (run config es).knowledge q) :
    ∃ typing pre written, Completes q item.label.toList typing pre written ∧
      typing.typed <+: item.label.toList ∧
      ((scan (pre ++ written)).getLast? =
          some (typing.completed item.label.toList written pre.bytes) ↔
        ¬ Escapes pre ∧ ¬ (LeavesOpen pre ∧ ClosesSubscript written)) := by
  obtain ⟨roots, hc⟩ := (sound_run config es).current
  obtain ⟨typing, pre, head, closing, hopens, hitem, hcompletes⟩ := exists_completes h
  obtain ⟨hfits, hprefix⟩ := hc.fits_of_mem_offers hitem
  exact ⟨typing, pre, _, hcompletes, hprefix, hopens.getLast?_scan_iff hfits⟩

/-- A script that names a variable and in which another payload of its class is being typed. -/
def typedPayload : Text := "KSR.pv.get('$var(a)')\nKSR.pv.get('$$$(var(')\n".toList

/-- The payload is offered, and in parentheses it makes a variable behind a pair of dollar signs. -/
theorem offers_typedPayload :
    let s := run .default [.opened "u:a" typedPayload 1 0]
    let q : Query := ⟨.ofText "u:a" typedPayload 1, 42⟩
    let item : Completion := ⟨"a", some .variable, some "script variable `var:a`"⟩
    item ∈ VariableAnalysis.completions s.knowledge q ∧
      (scan "$$$(var(a))".toList).getLast? =
        some ⟨"$(var(a))".toList, "var".toList, some ['a'], none, 2⟩ ∧
      ∃ typing pre written, Completes q item.label.toList typing pre written ∧
        typing.typed <+: item.label.toList ∧
        ((scan (pre ++ written)).getLast? =
            some (typing.completed item.label.toList written pre.bytes) ↔
          ¬ Escapes pre ∧ ¬ (LeavesOpen pre ∧ ClosesSubscript written)) := by
  intro s q item
  have hitem : item ∈ VariableAnalysis.completions s.knowledge q := by decide +kernel
  exact ⟨hitem, by decide, offers_run .default _ hitem⟩

/-- A script in which a class is being typed behind an escaped dollar sign. -/
def escapedClass : Text := "KSR.pv.get('$$va')\n".toList

/-- The class is offered there, and with it nothing is found. -/
theorem offers_escapedClass :
    let q : Query := ⟨.ofText "u:a" escapedClass 1, 16⟩
    let item : Completion := ⟨"var", some .variable, some "script variable"⟩
    q.engineCall?.bind q.typed? = some "$$va".toList ∧
      item ∈ VariableAnalysis.completions
        (run .default [.opened "u:a" escapedClass 1 0]).knowledge q ∧
      scan "$$var".toList = [] := by
  decide +kernel

end Session

end RouteScript
