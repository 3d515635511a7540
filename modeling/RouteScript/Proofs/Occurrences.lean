import RouteScript.Proofs.EngineCalls
import RouteScript.Proofs.Scanner
import RouteScript.Proofs.VariableIndex

/-!
# Occurrences that overlap

The occurrences in one literal follow one another, and those in literals that follow one another do
too.  The literal of a call may hold another call, though, in an interpolation.  The outer literal
is scanned as plain text then, and what the inner call names is found twice.

* `Document.Flat`: no call that names variables holds in its literal another one that does.
* `exists_overlap`: where one does, two occurrences overlap.
* `occurrences_apart_iff`: the occurrences are apart, and each is found by its offsets, exactly in
  flat documents.
* `not_apart_nested`: a document that is not flat.
-/

namespace RouteScript

namespace Occurrence

/-- Each occurrence ends in front of the next one. -/
def Apart (os : List Occurrence) : Prop := os.Pairwise fun a b => a.span.stop ≤ b.span.start

instance (os : List Occurrence) : Decidable (Apart os) :=
  inferInstanceAs (Decidable (os.Pairwise _))

theorem mem_ofCall {t : Text} {call : EngineCall} {o : Occurrence} (h : o ∈ ofCall t call) :
    (Access.ofMethod? call.module call.method).isSome = true ∧
      o.var ∈ PseudoVar.scan call.content ∧ o.span = o.var.span.shift call.contentSpan.start := by
  unfold ofCall at h
  split at h
  · cases h
  · rename_i access ha
    obtain ⟨var, hvar, rfl⟩ := List.mem_map.1 h
    exact ⟨Option.isSome_of_eq_some ha, hvar, rfl⟩

theorem scope_of_mem_ofCall {t : Text} {call : EngineCall} {o : Occurrence}
    (h : o ∈ ofCall t call) : o.scope = call.scope := by
  unfold ofCall at h
  split at h
  · cases h
  · obtain ⟨var, -, rfl⟩ := List.mem_map.1 h
    rfl

theorem exists_mem_ofCall (t : Text) {call : EngineCall} {var : PseudoVar}
    (h : (Access.ofMethod? call.module call.method).isSome = true)
    (hvar : var ∈ PseudoVar.scan call.content) :
    ∃ o ∈ ofCall t call, o.span = var.span.shift call.contentSpan.start := by
  obtain ⟨access, ha⟩ := Option.isSome_iff_exists.1 h
  rw [ofCall, ha]
  exact ⟨_, List.mem_map_of_mem hvar, rfl⟩

/-- The occurrences in a literal follow one another. -/
theorem apart_ofCall (t : Text) (call : EngineCall) : Apart (ofCall t call) := by
  unfold ofCall
  split
  · exact .nil
  · refine List.pairwise_map.2 ((PseudoVar.pairwise_scanFrom call.content 0).imp ?_)
    intro a b hab
    exact Nat.add_le_add_right hab _

end Occurrence

namespace Document

open Occurrence

/-- No call that names variables holds in its literal another call that names some. -/
def Flat (d : Document) : Prop := d.engineCalls.Pairwise fun outer inner =>
  (Access.ofMethod? outer.module outer.method).isSome = true → ofCall d.text inner ≠ [] →
    ¬ outer.contentSpan.Encloses inner.contentSpan

instance (d : Document) : Decidable d.Flat := inferInstanceAs (Decidable (List.Pairwise _ _))

/-- The range of an occurrence is that of its span. -/
theorem range_eq_of_mem_occurrences [Python.Recovery] {d : Document} {o : Occurrence}
    (h : o ∈ d.occurrences) : o.range = d.text.rangeOf o.span := by
  obtain ⟨call, -, ho⟩ := List.mem_flatMap.1 h
  unfold ofCall at ho
  split at ho
  · cases ho
  · obtain ⟨var, -, rfl⟩ := List.mem_map.1 ho
    rfl

/-- An occurrence is not empty and lies in the literal of its call. -/
theorem span_of_mem_ofCall [Python.Recovery] {d : Document} {call : EngineCall} {o : Occurrence}
    (h : call ∈ d.engineCalls) (ho : o ∈ ofCall d.text call) :
    call.contentSpan.start ≤ o.span.start ∧ o.span.start < o.span.stop ∧
      o.span.stop ≤ call.contentSpan.stop := by
  obtain ⟨front, rest, -, hstart, hstop⟩ := cut_of_mem_engineCalls h
  obtain ⟨-, hvar, hspan⟩ := mem_ofCall ho
  obtain ⟨-, hpos, hend⟩ := PseudoVar.bounds_of_mem_scanFrom hvar
  rw [Text.bytes_append, ← hstart] at hstop
  rw [hspan, hstop]
  simp only [Span.shift, PseudoVar.span]
  omega

/-- An occurrence is not empty. -/
theorem start_lt_of_mem_occurrences [Python.Recovery] {d : Document} {o : Occurrence}
    (h : o ∈ d.occurrences) : o.span.start < o.span.stop := by
  obtain ⟨call, hcall, ho⟩ := List.mem_flatMap.1 h
  exact (span_of_mem_ofCall hcall ho).2.1

/-- Where the literal of a call holds another call that names a variable, something is found in both
literals at once. -/
theorem exists_overlap {d : Document} {outer inner : EngineCall} (houter : outer ∈ d.engineCalls)
    (hinner : inner ∈ d.engineCalls)
    (hm : (Access.ofMethod? outer.module outer.method).isSome = true)
    (hne : ofCall d.text inner ≠ [])
    (hlo : outer.contentSpan.start < inner.contentSpan.start)
    (hhi : inner.contentSpan.stop ≤ outer.contentSpan.stop) :
    ∃ a ∈ ofCall d.text outer, ∃ b ∈ ofCall d.text inner, a.span.Contains b.span.start := by
  obtain ⟨pre, mark, post, hcontent, hmark, hstart⟩ := content_of_encloses houter hinner hlo hhi
  have hplain : PseudoVar.EndsPlain (pre ++ [mark]) := by
    refine PseudoVar.endsPlain_concat pre ?_
    rcases hmark with rfl | rfl <;> decide
  obtain ⟨o, ho⟩ := List.exists_mem_of_ne_nil _ hne
  obtain ⟨hm', hvar, -⟩ := mem_ofCall ho
  obtain ⟨v, hv, w, hw, hle, hlt⟩ :=
    PseudoVar.exists_scan_overlap hplain (List.ne_nil_of_mem hvar) post
  rw [← hcontent] at hv
  obtain ⟨a, ha, hsa⟩ := exists_mem_ofCall d.text hm hv
  obtain ⟨b, hb, hsb⟩ := exists_mem_ofCall d.text hm' hw
  refine ⟨a, ha, b, hb, ?_⟩
  rw [hsa, hsb]
  simp only [Span.Contains, Span.shift, PseudoVar.span, hstart]
  omega

/-- The occurrences of a document are apart if and only if it is flat. -/
theorem apart_iff_flat (d : Document) : Apart d.occurrences ↔ d.Flat := by
  rw [Apart, occurrences, List.pairwise_flatMap]
  constructor
  · rintro ⟨-, h⟩
    refine (d.pairwise_contentSpan.and h).imp_of_mem ?_
    rintro outer inner houter hinner ⟨⟨hlo, -⟩, hapart⟩ hm hne ⟨-, hhi⟩
    obtain ⟨a, ha, b, hb, hin⟩ := exists_overlap houter hinner hm hne hlo hhi
    have := hapart a ha b hb
    have := hin.2
    omega
  · intro h
    refine ⟨fun call _ => apart_ofCall d.text call, ?_⟩
    refine (d.pairwise_engineCalls.and h).imp_of_mem ?_
    rintro outer inner houter hinner ⟨hplace, hflat⟩ a ha b hb
    have hsa := span_of_mem_ofCall houter ha
    have hsb := span_of_mem_ofCall hinner hb
    -- a literal in a literal is what a flat document excludes
    rcases hplace with hapart | he
    · omega
    · exact absurd he (hflat (mem_ofCall ha).1 (List.ne_nil_of_mem hb))

/-- Occurrences are not empty.  Each of them ends in front of the next one and is the one found at
each of its offsets if and only if the document is flat. -/
theorem occurrences_apart_iff (d : Document) :
    (∀ o ∈ d.occurrences, o.span.start < o.span.stop) ∧
    ((Apart d.occurrences ∧ ∀ offset o,
      (VariableIndex.ofList d.occurrences).findAt? offset = some o ↔
        o ∈ d.occurrences ∧ o.span.Contains offset) ↔ d.Flat) := by
  have hne : ∀ o ∈ d.occurrences, o.span.start < o.span.stop :=
    fun _ => start_lt_of_mem_occurrences
  refine ⟨hne, fun ⟨h, _⟩ => d.apart_iff_flat.1 h, fun h => ?_⟩
  have hapart := d.apart_iff_flat.2 h
  exact ⟨hapart, fun offset o => VariableIndex.findAt?_ofList_eq_some_iff hne hapart⟩

/-- The variable of the inner call is found in both literals, at the same place. -/
theorem not_apart_nested :
    ¬ Apart (Document.ofText "file:///route.py"
      "KSR.pv.get(f\"\x7bKSR.pv.get('$var(b)')\x7d\")\n".toList 0).occurrences := by
  decide +kernel

end Document

end RouteScript
