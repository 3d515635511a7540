import RouteScript.Proofs.EditorOwnership
import RouteScript.Proofs.Forms
import RouteScript.Proofs.Occurrences
import RouteScript.Proofs.Positions
import RouteScript.Proofs.VariableDiagnostics

/-!
# Where occurrences are said to be

An occurrence is found at an offset of a literal, reported at a span of the document and shown at a
range of lines and columns.  It starts with a dollar sign and does not end with a carriage return,
so its ends are not lost on the way.

* `getLast?_of_matches`: a form does not end with a carriage return.
* `exists_cut_of_mem_scan`: a match is cut out of the text where it says.
* `Document.exact_of_mem_occurrences`: span and range of an occurrence select its match.
* `occurrenceRanges_run`: so do the ranges in diagnostics, references and hovers.
-/

namespace RouteScript

namespace PseudoVar

/-! ### The ends of a match -/

/-- The last character of what a form takes closes a parenthesis or belongs to a word or a path. -/
theorem exists_last_of_matches {used : Text} {f : Form} (h : Matches (used ++ f.rest) f) :
    ∃ front last, used = front ++ [last] ∧ (last = ')' ∨ isAliasChar last = true) := by
  generalize ht : used ++ f.rest = t at h
  have hword : ∀ {w : Text}, w ≠ [] → (∀ c ∈ w, isAliasChar c = true) →
      ∃ front last, w = front ++ [last] ∧ (last = ')' ∨ isAliasChar last = true) := by
    intro w hne hw
    obtain ⟨front, last, rfl⟩ := (List.eq_nil_or_concat' w).resolve_left hne
    exact ⟨front, last, rfl, .inr (hw last (by simp))⟩
  rcases h with h | h | h
  · cases h with
    | @mk cls t t' rest inner index _ hp hs =>
      -- payload and subscript are followed by the closing parenthesis
      obtain ⟨payload, rfl⟩ : ∃ payload, t = payload ++ t' := by
        cases hp with
        | missing => exact ⟨[], rfl⟩
        | @given inner rest _ => exact ⟨'(' :: (inner ++ [')']), by simp⟩
      obtain ⟨subscript, rfl⟩ : ∃ subscript, t' = subscript ++ ')' :: rest := by
        cases hs with
        | missing => exact ⟨[], rfl⟩
        | @given index _ _ => exact ⟨'[' :: (index ++ [']']), by simp⟩
      refine ⟨'(' :: (cls ++ (payload ++ subscript)), ')', ?_, .inl rfl⟩
      refine (List.append_left_inj rest).1 (ht.trans ?_)
      simp
  · cases h with
    | @full cls inner rest _ _ =>
      refine ⟨cls ++ '(' :: inner, ')', ?_, .inl rfl⟩
      refine (List.append_left_inj rest).1 (ht.trans ?_)
      simp
    | @bare cls rest hw _ =>
      obtain rfl := List.append_cancel_right ht
      obtain ⟨c, hc, -⟩ := hw.start
      refine hword (fun hnil => ?_) fun c hc => by rw [isAliasChar, hw.chars c hc, Bool.true_or]
      rw [hnil] at hc
      cases hc
  · cases h with
    | @mk path rest hne hpath _ =>
      obtain ⟨front, last, rfl, hlast⟩ := hword hne hpath
      refine ⟨'@' :: front, last, ?_, hlast⟩
      refine (List.append_left_inj rest).1 (ht.trans ?_)
      simp

theorem getLast?_of_matches {used : Text} {f : Form} (h : Matches (used ++ f.rest) f) :
    used.getLast? ≠ some '\r' := by
  obtain ⟨front, last, rfl, hlast⟩ := exists_last_of_matches h
  rw [List.getLast?_concat]
  rintro ⟨⟩
  exact absurd hlast (by decide)

/-- A match stands in the text where it says, from a dollar sign on. -/
theorem exists_cut_of_mem_scan {t : Text} {v : PseudoVar} (hv : v ∈ scan t) :
    ∃ pre post, t = pre ++ (v.matched ++ post) ∧ pre.bytes = v.offset ∧
      v.matched.head? = some '$' ∧ v.matched.getLast? ≠ some '\r' := by
  obtain ⟨used, f, hd, hm, hmatched, -⟩ := reading_of_mem_scan hv
  obtain ⟨pre, ht, hpre⟩ := hd.exists_front
  refine ⟨pre, f.rest, ?_, hpre, ?_, ?_⟩
  · rw [ht, hmatched, List.cons_append]
  · rw [hmatched]
    rfl
  · obtain ⟨front, last, hused, -⟩ := exists_last_of_matches hm
    have hlast := getLast?_of_matches hm
    rw [hused, List.getLast?_concat] at hlast
    rw [hmatched, hused, ← List.cons_append, List.getLast?_concat]
    exact hlast

end PseudoVar

/-! ### The ends of an occurrence -/

/-- The occurrence stands in the text at its span, and its range leads to the same place. -/
structure Occurrence.Exact (t : Text) (o : Occurrence) : Prop where
  slice : t.slice o.span = o.var.matched
  start : t.offsetOf o.range.start = o.span.start
  stop : t.offsetOf o.range.stop = o.span.stop
  selected : t.selected o.range = o.var.matched

namespace Document

/-- Span and range of an occurrence select its match. -/
theorem exact_of_mem_occurrences [Python.Recovery] {d : Document} {o : Occurrence}
    (h : o ∈ d.occurrences) : o.Exact d.text := by
  obtain ⟨call, hcall, ho⟩ := List.mem_flatMap.1 h
  obtain ⟨front, rest, htext, hstart, -⟩ := cut_of_mem_engineCalls hcall
  unfold Occurrence.ofCall at ho
  split at ho
  · cases ho
  · obtain ⟨var, hvar, rfl⟩ := List.mem_map.1 ho
    obtain ⟨pre, post, hcontent, hoffset, hhead, hlast⟩ := PseudoVar.exists_cut_of_mem_scan hvar
    let before := front ++ pre
    have hcut : d.text = before ++ (var.matched ++ (post ++ rest)) := by
      rw [htext, hcontent]
      simp [before]
    have hspan : var.span.shift call.contentSpan.start =
        ⟨Text.bytes before, Text.bytes (before ++ var.matched)⟩ := by
      rw [Span.shift, PseudoVar.span, PseudoVar.size, hstart, ← hoffset]
      simp only [before, Text.bytes_append, Span.mk.injEq]
      omega
    have hfirst : d.text.IsFirm (Text.bytes before) := by
      rw [hcut]
      refine Text.isFirm_start ?_
      rw [List.head?_append, hhead, Option.some_or]
      decide
    have hbehind : d.text.IsFirm (Text.bytes (before ++ var.matched)) := by
      rw [hcut, ← List.append_assoc]
      refine Text.isFirm_stop fun hr => hlast ?_
      rw [List.getLast?_append] at hr
      cases hl : var.matched.getLast? with
      | none => simp [List.getLast?_eq_none_iff.1 hl] at hhead
      | some c =>
        rw [hl] at hr
        exact hr
    have hslice : d.text.slice ⟨Text.bytes before, Text.bytes (before ++ var.matched)⟩ =
        var.matched := by
      rw [hcut]
      exact Text.slice_append_append ..
    rw [hspan]
    exact ⟨hslice, Text.offsetOf_positionOf hfirst, Text.offsetOf_positionOf hbehind,
      (Text.selected_rangeOf hfirst hbehind).trans hslice⟩

end Document

/-! ### What is shown of occurrences -/

namespace Knowledge

open VariableAnalysis

variable [Python.Recovery] {k : Knowledge} {view : View}

/-- An occurrence at a place is one of the document. -/
theorem Current.mem_of_occurrenceAt? (h : k.Current view) {q : Query} {o : Occurrence}
    (hq : view.store.get? q.document.uri = some q.document) (ho : occurrenceAt? k q = some o) :
    o ∈ q.document.occurrences ∧ o.span.Contains q.offset := by
  rw [occurrenceAt?, h.get?_indexes, hq] at ho
  obtain ⟨hm, hc⟩ := VariableIndex.mem_of_findAt? ho
  exact ⟨VariableIndex.mem_byPosition_ofList.1 hm, hc⟩

/-- The locations of a variable are those of occurrences in stored documents. -/
theorem Current.mem_of_mem_locationsOf (h : k.Current view) {key : String}
    {test : Occurrence → Bool} {l : Location} (hl : l ∈ locationsOf k key test) :
    ∃ d, view.store.get? l.uri = some d ∧ ∃ o ∈ d.occurrences, l.range = o.range := by
  obtain ⟨⟨uri, index⟩, hi, hmem⟩ := List.mem_flatMap.1 hl
  obtain ⟨o, ho, hof⟩ := List.mem_filterMap.1 hmem
  rw [Table.mem_entries_iff, h.get?_indexes] at hi
  obtain ⟨d, hd, rfl⟩ := Option.map_eq_some_iff.1 hi
  rw [VariableIndex.withKey_ofList] at ho
  have hm := (List.mem_filter.1 (List.mem_filter.1 ho).1).1
  unfold Location.of? at hof
  split at hof
  · cases hof
    exact ⟨d, hd, o, hm, rfl⟩
  · cases hof

end Knowledge

namespace Session

open VariableAnalysis

/-- **Occurrences are where they are said to be.**  In every document, the text at the span of an
occurrence is its match, and the positions of its range name the ends of the span.  After every run,
the ranges that diagnostics, references and hovers of the variable analyzer show are ranges of
occurrences, so each of them selects a match. -/
theorem occurrenceRanges_run [Python.Recovery] (config : Config) (es : List Event) :
    (∀ d : Document, ∀ o ∈ d.occurrences, d.text.slice o.span = o.var.matched ∧
      d.text.offsetOf o.range.start = o.span.start ∧ d.text.offsetOf o.range.stop = o.span.stop) ∧
    ∀ uri d, (run config es).store.get? uri = some d →
      (∀ x ∈ VariableAnalysis.diagnostics (run config es).knowledge d, ∃ o ∈ d.occurrences,
        x.range = o.range ∧ d.text.selected x.range = o.var.matched) ∧
      ∀ offset,
        (∀ l ∈ VariableAnalysis.references (run config es).knowledge ⟨d, offset⟩,
          ∃ d', (run config es).store.get? l.uri = some d' ∧ ∃ o ∈ d'.occurrences,
            l.range = o.range ∧ d'.text.selected l.range = o.var.matched) ∧
        ∀ h, VariableAnalysis.hover (run config es).knowledge ⟨d, offset⟩ = some h →
          ∃ o ∈ d.occurrences, o.span.Contains offset ∧ h.range = o.range ∧
            d.text.selected h.range = o.var.matched := by
  refine ⟨fun d o ho => ?_, fun uri d hd => ?_⟩
  · have h := Document.exact_of_mem_occurrences ho
    exact ⟨h.slice, h.start, h.stop⟩
  have hs := sound_run config es
  obtain ⟨roots, hc⟩ := hs.current
  obtain rfl := hs.keyed uri d hd
  refine ⟨fun x hx => ?_, fun offset => ⟨fun l hl => ?_, fun h hh => ?_⟩⟩
  · rw [VariableAnalysis.diagnostics, occurrencesOf, hc.get?_indexes, hd] at hx
    obtain ⟨o, ho, hx⟩ := List.mem_filterMap.1 hx
    have hm : o ∈ d.occurrences := VariableIndex.mem_byPosition_ofList.1 ho
    have hrange : x.range = o.range := by
      unfold finding? at hx
      split_ifs at hx <;> cases hx <;> rfl
    exact ⟨o, hm, hrange, hrange ▸ (Document.exact_of_mem_occurrences hm).selected⟩
  · unfold VariableAnalysis.references at hl
    cases ho : occurrenceAt? (run config es).knowledge ⟨d, offset⟩ with
    | none =>
      rw [ho] at hl
      cases hl
    | some o =>
      rw [ho] at hl
      obtain ⟨d', hd', o', hm, hrange⟩ := hc.mem_of_mem_locationsOf hl
      exact ⟨d', hd', o', hm, hrange,
        hrange ▸ (Document.exact_of_mem_occurrences hm).selected⟩
  · obtain ⟨o, ho, rfl⟩ := Option.map_eq_some_iff.1 hh
    obtain ⟨hm, hin⟩ := hc.mem_of_occurrenceAt? hd ho
    exact ⟨o, hm, hin, rfl, (Document.exact_of_mem_occurrences hm).selected⟩

/-- A literal over two lines, with a character of two units in front of the variable. -/
def twoLines : Text := "KSR.pv.get('''é\r\n𝒳$var(a)\r\n''')".toList

/-- The variable stands behind the character of the second line, and so does what is shown of it. -/
theorem occurrenceRanges_twoLines :
    (∃ o ∈ (Document.ofText "u:a" twoLines 1).occurrences, o.range = ⟨⟨1, 2⟩, ⟨1, 9⟩⟩ ∧
      twoLines.slice o.span = "$var(a)".toList ∧ twoLines.offsetOf ⟨1, 2⟩ = o.span.start ∧
      twoLines.offsetOf ⟨1, 9⟩ = o.span.stop) ∧
    ∀ x ∈ VariableAnalysis.diagnostics (run .default [.opened "u:a" twoLines 1 0]).knowledge
        (.ofText "u:a" twoLines 1), twoLines.selected x.range = "$var(a)".toList := by
  have hd : (run .default [.opened "u:a" twoLines 1 0]).store.get? "u:a" =
      some (.ofText "u:a" twoLines 1) :=
    (get?_run_opened_iff (by decide +kernel)).2 ⟨rfl, rfl⟩
  have hfound : (Document.ofText "u:a" twoLines 1).occurrences.map
      (fun o => (o.var.matched, o.range)) = [("$var(a)".toList, ⟨⟨1, 2⟩, ⟨1, 9⟩⟩)] := by
    decide +kernel
  have hall : ∀ o ∈ (Document.ofText "u:a" twoLines 1).occurrences,
      o.var.matched = "$var(a)".toList ∧ o.range = ⟨⟨1, 2⟩, ⟨1, 9⟩⟩ := fun o ho => by
    have hm := List.mem_map_of_mem (f := fun o => (o.var.matched, o.range)) ho
    rw [hfound] at hm
    exact Prod.ext_iff.1 (List.mem_singleton.1 hm)
  obtain ⟨hexact, hshown⟩ := occurrenceRanges_run .default [.opened "u:a" twoLines 1 0]
  refine ⟨?_, fun x hx => ?_⟩
  · have hne : (Document.ofText "u:a" twoLines 1).occurrences ≠ [] := fun h => by
      rw [h] at hfound
      cases hfound
    obtain ⟨o, ho⟩ := List.exists_mem_of_ne_nil _ hne
    obtain ⟨hslice, hstart, hstop⟩ := hexact _ o ho
    obtain ⟨hmatched, hrange⟩ := hall o ho
    rw [hrange] at hstart hstop
    exact ⟨o, ho, hrange, hmatched ▸ hslice, hstart, hstop⟩
  · obtain ⟨o, ho, -, hselected⟩ := (hshown "u:a" _ hd).1 x hx
    exact hselected.trans (hall o ho).1

end Session

end RouteScript
