import RouteScript.Proofs.LiteralParts
import RouteScript.Proofs.OccurrenceRanges
import RouteScript.Proofs.TableDiagnostics
import RouteScript.Proofs.CallbackDiagnostics
import RouteScript.Report

/-!
# What reports mark

A finding is kept with a range of lines and columns and reported at a span of bytes, which has to be
found in the text again.  All findings are about occurrences and literals, and their ends are not lost
on the way.  A report marks one byte at least; behind an empty literal this is the quotation mark that
closes it.

* `Document.Marks`: the ranges that findings have, each with the text that it flags.
* `Report.Covers`: a report marks the flagged text.
* `Knowledge.Current.marks_of_mem_*`: the findings of each analyzer have such ranges.
* `Report.covers_ofDiagnostic`: the report of a finding with such a range marks its text.
* `reportSpans_run`: so do the reports of all findings, after every run and in every check.
-/

namespace RouteScript

/-- The range is that of an occurrence or of the literal of a call, and the text is what stands
there. -/
inductive Document.Marks (d : Document) : Range → Text → Prop
  | occurrence {o : Occurrence} : o ∈ d.occurrences → d.Marks o.range o.var.matched
  | literal {call : EngineCall} : call ∈ d.engineCalls →
    d.Marks (d.text.rangeOf call.contentSpan) call.content

/-- The report marks the flagged text, between characters and within the source.  If that text is
empty, it marks a quotation mark instead, where the token starts that closes the literal. -/
structure Report.Covers (r : Report) (flagged : Text) : Prop where
  start_lt_stop : r.span.start < r.span.stop
  stop_le : r.span.stop ≤ r.source.bytes
  isBoundary_start : r.source.isBoundary r.span.start = true
  isBoundary_stop : r.source.isBoundary r.span.stop = true
  slice_eq : flagged ≠ [] → r.source.slice r.span = flagged
  closing : flagged = [] → (r.source.slice r.span = ['\''] ∨ r.source.slice r.span = ['"']) ∧
    ∃ token ∈ Python.tokens r.source, token.kind = .stringEnd ∧ token.span.start = r.span.start

/-! ### The ranges of findings -/

namespace Knowledge.Current

variable {store : Store} {roots : List Path} {k : Knowledge} {d : Document} {x : Diagnostic}

/-- A finding about a variable has the range of an occurrence. -/
theorem marks_of_mem_variables (h : k.Current ⟨store, roots⟩) (hd : store.get? d.uri = some d)
    (hx : x ∈ VariableAnalysis.diagnostics k d) : ∃ flagged, d.Marks x.range flagged := by
  rw [h.diagnostics_eq hd] at hx
  obtain ⟨o, ho, hx⟩ := List.mem_filterMap.1 hx
  have hrange : x.range = o.range := by
    unfold Occurrence.expected? at hx
    split_ifs at hx <;> cases hx <;> rfl
  rw [hrange]
  exact ⟨_, .occurrence (List.mem_mergeSort.1 ho)⟩

/-- A finding about a callback has the range of a literal. -/
theorem marks_of_mem_callbacks (h : k.Current ⟨store, roots⟩) (hk : store.Keyed)
    (hd : store.get? d.uri = some d) (hx : x ∈ CallbackAnalysis.diagnostics k d) :
    ∃ flagged, d.Marks x.range flagged := by
  rw [h.callbackDiagnostics_eq hk hd] at hx
  obtain ⟨call, hcall, rfl⟩ := List.mem_map.1 hx
  exact ⟨_, .literal (List.mem_of_mem_filter hcall)⟩

/-- A finding about a table has the range of a literal or of an occurrence. -/
theorem marks_of_mem_tables (h : k.Current ⟨store, roots⟩) (hd : store.get? d.uri = some d)
    {declared : List String}
    (hx : x ∈ HashTableAnalysis.diagnostics (OrdSet.ofList declared) k d) :
    ∃ flagged, d.Marks x.range flagged := by
  rw [h.tableDiagnostics_eq declared hd] at hx
  obtain ⟨u, hu, rfl⟩ := List.mem_map.1 hx
  have huse := (HashTableAnalysis.perm_uses d).mem_iff.1 (List.mem_of_mem_filter hu)
  rcases List.mem_append.1 huse with huse | huse
  · obtain ⟨call, hcall, hnames⟩ := List.mem_filterMap.1 huse
    rw [TableUse.unwritten, Diagnostic.ofFinding,
      (HashTableAnalysis.ofCall?_eq_some_iff.1 hnames).range_eq]
    exact ⟨_, .literal hcall⟩
  · obtain ⟨o, ho, hnames⟩ := List.mem_filterMap.1 huse
    rw [TableUse.unwritten, Diagnostic.ofFinding,
      (HashTableAnalysis.ofOccurrence?_eq_some_iff.1 hnames).range_eq]
    exact ⟨_, .occurrence ho⟩

/-- A finding about a statistic has the range of a literal or of an occurrence. -/
theorem marks_of_mem_statistics (h : k.Current ⟨store, roots⟩) (hd : store.get? d.uri = some d)
    {declared : OrdSet String} (hx : x ∈ StatisticAnalysis.diagnostics declared k d) :
    ∃ flagged, d.Marks x.range flagged := by
  have huses : k.statistics.usesOf d.uri = StatisticAnalysis.uses d := by
    rw [h.statistics]
    exact Store.usesOf_mapValues StatisticAnalysis.uses hd
  unfold StatisticAnalysis.diagnostics at hx
  split at hx
  · cases hx
  obtain ⟨u, hu, rfl⟩ := List.mem_map.1 hx
  have huse := List.mem_of_mem_filter hu
  rw [huses, StatisticAnalysis.uses, List.mem_mergeSort] at huse
  rcases List.mem_append.1 huse with huse | huse
  · obtain ⟨call, hcall, hof⟩ := List.mem_filterMap.1 huse
    unfold StatisticAnalysis.ofCall? at hof
    split at hof
    · cases hof
      exact ⟨_, .literal hcall⟩
    · cases hof
  · obtain ⟨o, ho, hof⟩ := List.mem_filterMap.1 huse
    unfold StatisticAnalysis.ofOccurrence? at hof
    split at hof
    · obtain ⟨name, -, rfl⟩ := Option.map_eq_some_iff.1 hof
      exact ⟨_, .occurrence ho⟩
    · cases hof

end Knowledge.Current

/-! ### The spans of reports -/

theorem Document.matched_ne_nil {d : Document} {o : Occurrence} (h : o ∈ d.occurrences) :
    o.var.matched ≠ [] := by
  obtain ⟨call, -, ho⟩ := List.mem_flatMap.1 h
  unfold Occurrence.ofCall at ho
  split at ho
  · cases ho
  · obtain ⟨var, hvar, rfl⟩ := List.mem_map.1 ho
    obtain ⟨-, -, -, -, hhead, -⟩ := PseudoVar.exists_cut_of_mem_scan hvar
    rintro (hnil : var.matched = [])
    rw [hnil] at hhead
    cases hhead

namespace Report

variable {d : Document} {x : Diagnostic} {path : String} {flagged : Text}

theorem span_ofDiagnostic (x : Diagnostic) (t : Text) (path : String) :
    (ofDiagnostic x t path).span = ⟨t.offsetOf x.range.start,
      max (t.offsetOf x.range.stop) (t.offsetOf x.range.start + 1)⟩ := rfl

/-- A report starts between characters, whatever the range; the rest depends on where it ends. -/
theorem covers_of_span {s : Span} (hspan : (ofDiagnostic x d.text path).span = s)
    (hstop : d.text.isBoundary s.stop = true) (hslice : flagged ≠ [] → d.text.slice s = flagged)
    (hclosing : flagged = [] → (d.text.slice s = ['\''] ∨ d.text.slice s = ['"']) ∧
      ∃ token ∈ Python.tokens d.text, token.kind = .stringEnd ∧ token.span.start = s.start) :
    (ofDiagnostic x d.text path).Covers flagged where
  start_lt_stop := (ofDiagnostic x d.text path).start_lt_stop
  stop_le := hspan ▸ Text.bytes_le_of_isBoundary hstop
  isBoundary_start := Text.isBoundary_offsetOf ..
  isBoundary_stop := hspan ▸ hstop
  slice_eq := hspan ▸ hslice
  closing := hspan ▸ hclosing

/-- A range that is not empty is marked as it stands. -/
theorem covers_of_lt {s : Span} (hstart : d.text.offsetOf x.range.start = s.start)
    (hstop : d.text.offsetOf x.range.stop = s.stop) (hlt : s.start < s.stop)
    (hslice : d.text.slice s = flagged) (hne : flagged ≠ []) :
    (ofDiagnostic x d.text path).Covers flagged := by
  have hspan : (ofDiagnostic x d.text path).span = s := by
    rw [span_ofDiagnostic, hstart, hstop, Nat.max_eq_left hlt]
  exact covers_of_span hspan (hstop ▸ Text.isBoundary_offsetOf ..) (fun _ => hslice)
    fun h => absurd h hne

theorem covers_occurrence {o : Occurrence} (ho : o ∈ d.occurrences) (hrange : x.range = o.range) :
    (ofDiagnostic x d.text path).Covers o.var.matched := by
  have hexact := Document.exact_of_mem_occurrences ho
  obtain ⟨call, hcall, hof⟩ := List.mem_flatMap.1 ho
  refine covers_of_lt ?_ ?_ (Document.span_of_mem_ofCall hcall hof).2.1 hexact.slice
    (Document.matched_ne_nil ho)
  · rw [hrange, hexact.start]
  · rw [hrange, hexact.stop]

/-- Behind an empty literal, the quotation mark is marked that closes it. -/
theorem covers_closing {call : EngineCall} (hcall : call ∈ d.engineCalls)
    (hrange : x.range = d.text.rangeOf call.contentSpan)
    (hempty : call.contentSpan.start = call.contentSpan.stop) :
    (ofDiagnostic x d.text path).Covers [] := by
  obtain ⟨token, htoken, hend, hplace⟩ := Document.exists_closing hcall
  obtain ⟨front, mark, rest, ht, hmark, hstart⟩ := Python.closing_of_mem_tokens htoken hend
  have hsize : mark.utf8Size = 1 := by rcases hmark with rfl | rfl <;> rfl
  have hspan : (ofDiagnostic x d.text path).span =
      ⟨Text.bytes front, Text.bytes (front ++ [mark])⟩ := by
    have hoffset : d.text.offsetOf (d.text.positionOf call.contentSpan.stop) = Text.bytes front := by
      rw [Text.offsetOf_positionOf (Document.isFirm_contentSpan hcall).2, ← hplace, hstart]
    rw [span_ofDiagnostic, hrange, Text.rangeOf, hempty, hoffset, Text.bytes_append,
      Text.bytes_cons, hsize, Text.bytes_nil, Nat.max_eq_right (Nat.le_succ _)]
  have hcut : d.text = front ++ ([mark] ++ rest) := ht
  have hslice : d.text.slice ⟨Text.bytes front, Text.bytes (front ++ [mark])⟩ = [mark] := by
    rw [hcut, Text.slice_append_append]
  have hboundary : d.text.isBoundary (Text.bytes (front ++ [mark])) = true :=
    Text.isBoundary_iff.2 ⟨front ++ [mark], rest, by rw [hcut, List.append_assoc], rfl⟩
  refine covers_of_span hspan hboundary (fun h => absurd rfl h)
    fun _ => ⟨?_, token, htoken, hend, hstart⟩
  rw [hslice]
  rcases hmark with rfl | rfl
  · exact .inl rfl
  · exact .inr rfl

theorem covers_literal {call : EngineCall} (hcall : call ∈ d.engineCalls)
    (hrange : x.range = d.text.rangeOf call.contentSpan) :
    (ofDiagnostic x d.text path).Covers call.content := by
  obtain ⟨front, mark, rest, ht, -, hstart, hstop⟩ := Document.quoted_of_mem_engineCalls hcall
  obtain ⟨hfirst, hlast⟩ := Document.isFirm_contentSpan hcall
  rcases eq_or_ne call.content [] with hnil | hne
  · rw [hnil, List.append_nil] at hstop
    rw [hnil]
    exact covers_closing hcall hrange (hstart.trans hstop.symm)
  · refine covers_of_lt (s := call.contentSpan) ?_ ?_ ?_ ?_ hne
    · rw [hrange, Text.rangeOf, Text.offsetOf_positionOf hfirst]
    · rw [hrange, Text.rangeOf, Text.offsetOf_positionOf hlast]
    · rw [hstart, hstop, Text.bytes_append (front ++ [mark])]
      exact Nat.lt_add_of_pos_right (Text.bytes_pos hne)
    · have hspan : call.contentSpan =
          ⟨Text.bytes (front ++ [mark]), Text.bytes (front ++ [mark] ++ call.content)⟩ := by
        rw [← hstart, ← hstop]
      have hcut : d.text = front ++ [mark] ++ (call.content ++ rest) := by
        rw [ht, List.append_assoc]
        rfl
      rw [hspan, hcut, Text.slice_append_append]

/-- The report of a finding marks what it flags. -/
theorem covers_ofDiagnostic (h : d.Marks x.range flagged) (path : String) :
    (ofDiagnostic x d.text path).Covers flagged := by
  generalize hrange : x.range = range at h
  cases h with
  | occurrence ho => exact covers_occurrence ho hrange
  | literal hcall => exact covers_literal hcall hrange

end Report

namespace Session

/-- All findings about a stored document are about occurrences and literals. -/
theorem Sound.marks_of_mem_diagnostics {s : Session} (hs : s.Sound) {uri : String} {d : Document}
    (hd : s.document? uri = some d) {x : Diagnostic} (hx : x ∈ s.diagnostics uri) :
    ∃ flagged, d.Marks x.range flagged := by
  obtain ⟨roots, hc⟩ := hs.current
  have hstored : s.store.get? d.uri = some d := hs.keyed _ d hd ▸ hd
  rw [diagnostics_eq_append hd] at hx
  simp only [List.mem_append, List.not_mem_nil, or_false] at hx
  rcases hx with hx | hx | hx | hx
  · exact hc.marks_of_mem_variables hstored hx
  · exact hc.marks_of_mem_callbacks hs.keyed hstored hx
  · exact hc.marks_of_mem_tables hstored hx
  · exact hc.marks_of_mem_statistics hstored hx

end Session

theorem Command.mem_findings {s : Session} {found : Document × Diagnostic}
    (h : found ∈ Command.findings s) : ∃ uri, s.store.get? uri = some found.1 ∧
      found.2 ∈ s.diagnostics found.1.uri := by
  simp only [findings, List.mem_flatMap, List.mem_map, Table.mem_values_iff] at h
  obtain ⟨d, ⟨uri, hd⟩, x, hx, rfl⟩ := h
  exact ⟨uri, hd, hx⟩

namespace Session

/-- **Findings can be shown.**  After every run, each finding about a stored document has the range of
an occurrence or of the literal of a call, and the span of its report is not empty, lies in the text
between characters and is that of the flagged text.  If the flagged literal is empty, the span is that
of the quotation mark that closes it.  So it is for all reports of a check. -/
theorem reportSpans_run (config : Config) (es : List Event) :
    (∀ uri d, (run config es).document? uri = some d → ∀ x ∈ (run config es).diagnostics uri,
      ∃ flagged, d.Marks x.range flagged ∧
        ∀ path, (Report.ofDiagnostic x d.text path).Covers flagged) ∧
    ∀ disk paths, ∀ found ∈ Command.findings (Command.indexed config disk paths),
      ∃ flagged, found.1.Marks found.2.range flagged ∧
        (Report.ofDiagnostic found.2 found.1.text (Command.displayName found.1.uri)).Covers
          flagged := by
  refine ⟨fun uri d hd x hx => ?_, fun disk paths found hfound => ?_⟩
  · obtain ⟨flagged, hmarks⟩ := (sound_run config es).marks_of_mem_diagnostics hd hx
    exact ⟨flagged, hmarks, Report.covers_ofDiagnostic hmarks⟩
  · obtain ⟨es', hrun⟩ := Command.exists_run_indexed config disk paths
    have hs : (Command.indexed config disk paths).Sound := hrun ▸ sound_run config es'
    obtain ⟨uri, hd, hx⟩ := Command.mem_findings hfound
    have hdocument : (Command.indexed config disk paths).document? found.1.uri = some found.1 := by
      rw [document?, hs.canonical uri _ hd, hs.keyed uri _ hd]
      exact hd
    obtain ⟨flagged, hmarks⟩ := hs.marks_of_mem_diagnostics hdocument hx
    exact ⟨flagged, hmarks, Report.covers_ofDiagnostic hmarks _⟩

/-- A script whose callback has no name, behind a comment with a character of four bytes. -/
def namelessCallback : Text := "# 𝒳\nKSR.tm.t_on_reply('')".toList

/-- The report marks the second quotation mark. -/
theorem reportSpans_namelessCallback :
    ∃ x ∈ (run .default [.opened "u:a" namelessCallback 1 0]).diagnostics "u:a",
      (Report.ofDiagnostic x namelessCallback "a").span = ⟨26, 27⟩ ∧
      ∃ flagged, (Document.ofText "u:a" namelessCallback 1).Marks x.range flagged ∧
        (Report.ofDiagnostic x namelessCallback "a").Covers flagged := by
  have hd : (run .default [.opened "u:a" namelessCallback 1 0]).document? "u:a" =
      some (.ofText "u:a" namelessCallback 1) := by
    rw [document?, show Uri.canonical "u:a" = "u:a" by decide +kernel]
    exact (get?_run_opened_iff (by decide +kernel)).2 ⟨rfl, rfl⟩
  let x : Diagnostic := .ofFinding ⟨⟨1, 19⟩, ⟨1, 19⟩⟩ .error "callback-unresolved"
    "No routine named `` for KSR.tm.t_on_reply"
  have hx : x ∈ (run .default [.opened "u:a" namelessCallback 1 0]).diagnostics "u:a" := by
    rw [diagnostics_eq_append hd]
    decide +kernel
  obtain ⟨flagged, hmarks, hcovers⟩ := (reportSpans_run .default _).1 "u:a" _ hd x hx
  exact ⟨x, hx, by decide +kernel, flagged, hmarks, hcovers "a"⟩

end Session

end RouteScript
