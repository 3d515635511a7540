import RouteScript.Proofs.OccurrenceRanges
import RouteScript.Proofs.References
import RouteScript.Proofs.Rounding

/-!
# References to variables

A question about a variable starts from the occurrence at a place, which is looked up by position,
and goes on to the occurrences of the same key in all documents, which are looked up by identity.
Where the occurrences of a document do not overlap, be it a module or not, the first look-up finds
the one at the place, and the second one depends on the key alone.

* `Store.occurrencesOf`: the occurrences of a variable in the stored documents.
* `Store.pairwise_occurrencesOf`: they stand one behind the other.
* `Knowledge.Current.locationsOf_eq`, `Knowledge.Current.count_eq`: the indexes tell of these.
* `variableReferences_run`: after every run, references are the places of these, definitions those
  of the writes among them, and a hover counts them.
-/

namespace RouteScript

open VariableAnalysis

/-! ### The occurrences of a variable -/

namespace Document

/-- Where the occurrences of a document do not overlap, their positions ascend. -/
theorem pairwise_start_of_apart [Python.Recovery] {d : Document}
    (h : Occurrence.Apart d.occurrences) :
    d.occurrences.Pairwise fun a b => a.range.start.line < b.range.start.line ∨
      a.range.start.line = b.range.start.line ∧
        a.range.start.character < b.range.start.character := by
  refine h.imp_of_mem fun {a b} ha hb hab => ?_
  have hlt : a.span.start < b.span.start :=
    Nat.lt_of_lt_of_le (start_lt_of_mem_occurrences ha) hab
  have hle : a.range.start.le b.range.start = true := by
    rw [range_eq_of_mem_occurrences ha, range_eq_of_mem_occurrences hb]
    exact d.text.positionOf_mono (Nat.le_of_lt hlt)
  refine (Position.le_iff.1 hle).imp_right fun ⟨hline, hcharacter⟩ => ⟨hline, ?_⟩
  -- equal positions would lead back to equal offsets
  refine Nat.lt_of_le_of_ne hcharacter fun hsame => Nat.ne_of_lt hlt ?_
  have hstart : a.range.start = b.range.start := congrArg₂ Position.mk hline hsame
  rw [← (exact_of_mem_occurrences ha).start, hstart, (exact_of_mem_occurrences hb).start]

end Document

/-- Where an occurrence in the document of a URI is. -/
def Location.ofOccurrence (x : String × Occurrence) : Location := ⟨x.1, x.2.range⟩

namespace Store

variable [Python.Recovery]

/-- The occurrences of a variable in the stored documents, in the order of the documents, each with
the URI of its own. -/
def occurrencesOf (store : Store) (key : String) : List (String × Occurrence) :=
  store.documents.entries.flatMap fun e =>
    (e.2.occurrences.filter (·.key == key)).map fun o => (e.1, o)

variable {store : Store} {key : String}

theorem mem_occurrencesOf {uri : String} {o : Occurrence} : (uri, o) ∈ store.occurrencesOf key ↔
    ∃ d, store.get? uri = some d ∧ o ∈ d.occurrences ∧ o.key = key := by
  simp only [occurrencesOf, List.mem_flatMap, List.mem_map, List.mem_filter, beq_iff_eq,
    Prod.exists, Table.mem_entries_iff, Store.get?, Prod.mk.injEq]
  constructor
  · rintro ⟨uri, d, hd, o, ⟨ho, hkey⟩, rfl, rfl⟩
    exact ⟨d, hd, ho, hkey⟩
  · rintro ⟨d, hd, ho, hkey⟩
    exact ⟨uri, d, hd, o, ⟨ho, hkey⟩, rfl, rfl⟩

/-- The places of the occurrences ascend. -/
theorem pairwise_occurrencesOf
    (h : ∀ uri d, store.get? uri = some d → Occurrence.Apart d.occurrences) (key : String) :
    ((store.occurrencesOf key).map Location.ofOccurrence).Pairwise Location.Before := by
  refine List.pairwise_map.2 (List.pairwise_flatMap.2 ⟨fun ⟨uri, d⟩ he => ?_, ?_⟩)
  · have hd : store.get? uri = some d := Table.mem_entries_iff.1 he
    refine List.pairwise_map.2 (((Document.pairwise_start_of_apart (h uri d hd)).filter _).imp ?_)
    exact fun hab => .inr ⟨rfl, hab⟩
  · refine store.documents.ascending.imp fun {e e'} huri x hx y hy => .inl ?_
    obtain ⟨o, -, rfl⟩ := List.mem_map.1 hx
    obtain ⟨o', -, rfl⟩ := List.mem_map.1 hy
    exact compareOfLessAndEq_eq_lt.1 huri

end Store

/-! ### What the indexes tell -/

namespace Knowledge

variable [Python.Recovery] {store : Store} {roots : List Path} {k : Knowledge}

/-- The places of a variable are those of its occurrences in the stored documents. -/
theorem Current.locationsOf_eq (h : k.Current ⟨store, roots⟩)
    (hvalid : ∀ uri d, store.get? uri = some d → Uri.isReference uri = true) (key : String)
    (test : Occurrence → Bool) : locationsOf k key test =
      ((store.occurrencesOf key).filter fun x => test x.2).map Location.ofOccurrence := by
  have hentries : k.indexes.entries =
      store.documents.entries.map fun e => (e.1, VariableIndex.ofList e.2.occurrences) := by
    rw [h.indexes]
    rfl
  rw [locationsOf, hentries, List.flatMap_map, Store.occurrencesOf, List.filter_flatMap,
    List.map_flatMap]
  refine List.flatMap_congr fun ⟨uri, d⟩ he => ?_
  have hreference : Uri.isReference uri = true := hvalid uri d (Table.mem_entries_iff.1 he)
  dsimp only
  rw [VariableIndex.withKey_ofList, List.filter_map, List.map_map, ← List.filterMap_eq_map]
  exact List.filterMap_congr fun o _ => if_pos hreference

/-- The number of accesses to a variable is that of its occurrences in the stored documents. -/
theorem Current.count_eq (h : k.Current ⟨store, roots⟩) (key : String) (access : Access) :
    count k key access = (store.occurrencesOf key).countP fun x => x.2.access == access := by
  have hvalues : k.indexes.values =
      store.documents.entries.map fun e => VariableIndex.ofList e.2.occurrences := by
    rw [h.indexes]
    exact List.map_map
  rw [count, hvalues, List.flatMap_map, ← List.countP_eq_length_filter, Store.occurrencesOf,
    List.countP_flatMap, List.countP_flatMap]
  refine congrArg List.sum (List.map_congr_left fun e _ => ?_)
  rw [Function.comp_apply, Function.comp_apply, VariableIndex.withKey_ofList, List.countP_map]
  rfl

/-- Where the occurrences of a document do not overlap, the one at a place is found. -/
theorem Current.occurrenceAt?_eq (h : k.Current ⟨store, roots⟩) {d : Document}
    (hd : store.get? d.uri = some d) (hapart : Occurrence.Apart d.occurrences) {o : Occurrence}
    (ho : o ∈ d.occurrences) {offset : Nat} (hin : o.span.Contains offset) :
    occurrenceAt? k ⟨d, offset⟩ = some o := by
  rw [occurrenceAt?, h.get?_indexes, hd]
  refine (VariableIndex.findAt?_ofList_eq_some_iff (fun o ho => ?_) hapart).2 ⟨ho, hin⟩
  exact Document.start_lt_of_mem_occurrences ho

end Knowledge

namespace Session

/-- **References to a variable are complete.**  After every run whose documents have URIs that are
references and occurrences that do not overlap, let a place be in an occurrence of a stored
document.  The references there are the places of all occurrences of the same key in the stored
documents, one each, by document and position; the definitions are those of the writes among them;
and a hover counts the writes and the reads.  So any two places in occurrences of one key have the
same references and definitions. -/
theorem variableReferences_run [Python.Recovery] (config : Config) (es : List Event)
    (hvalid : ∀ uri d, (run config es).store.get? uri = some d → Uri.isReference uri = true)
    (hapart : ∀ uri d, (run config es).store.get? uri = some d → Occurrence.Apart d.occurrences)
    {uri : String} {d : Document} (hd : (run config es).store.get? uri = some d) {o : Occurrence}
    (ho : o ∈ d.occurrences) {offset : Nat} (hin : o.span.Contains offset) :
    let k := (run config es).knowledge
    let found := (run config es).store.occurrencesOf o.key
    (VariableAnalysis.references k ⟨d, offset⟩ = found.map Location.ofOccurrence ∧
        (∀ uri' o', (uri', o') ∈ found ↔ ∃ d', (run config es).store.get? uri' = some d' ∧
          o' ∈ d'.occurrences ∧ o'.key = o.key) ∧
        (found.map Location.ofOccurrence).Pairwise Location.Before) ∧
      VariableAnalysis.definitions k ⟨d, offset⟩ =
        (found.filter fun x => x.2.access = .write).map Location.ofOccurrence ∧
      VariableAnalysis.hover k ⟨d, offset⟩ = some ⟨describe o ++ "\n\nIdentity `" ++ o.key ++ "`: "
        ++ toString (found.countP fun x => x.2.access = .write) ++ " write(s), "
        ++ toString (found.countP fun x => x.2.access = .read) ++ " read(s) in the workspace",
        o.range⟩ ∧
      ∀ uri' d' o' offset', (run config es).store.get? uri' = some d' → o' ∈ d'.occurrences →
        o'.span.Contains offset' → o'.key = o.key →
          VariableAnalysis.references k ⟨d', offset'⟩ =
              VariableAnalysis.references k ⟨d, offset⟩ ∧
            VariableAnalysis.definitions k ⟨d', offset'⟩ =
              VariableAnalysis.definitions k ⟨d, offset⟩ := by
  intro k found
  have hs := sound_run config es
  obtain ⟨roots, h⟩ := hs.current
  have hat : ∀ {uri d o offset}, (run config es).store.get? uri = some d → o ∈ d.occurrences →
      o.span.Contains offset → occurrenceAt? k ⟨d, offset⟩ = some o := by
    intro uri d o offset hd ho hin
    obtain rfl := hs.keyed uri d hd
    exact h.occurrenceAt?_eq hd (hapart _ d hd) ho hin
  -- what is found depends on the key of the occurrence alone
  have hreferences : ∀ {uri d o offset}, (run config es).store.get? uri = some d →
      o ∈ d.occurrences → o.span.Contains offset → VariableAnalysis.references k ⟨d, offset⟩ =
        ((run config es).store.occurrencesOf o.key).map Location.ofOccurrence := by
    intro uri d o offset hd ho hin
    rw [VariableAnalysis.references, hat hd ho hin, Option.map_some, Option.getD_some,
      h.locationsOf_eq hvalid, List.filter_true]
  have hdefinitions : ∀ {uri d o offset}, (run config es).store.get? uri = some d →
      o ∈ d.occurrences → o.span.Contains offset → VariableAnalysis.definitions k ⟨d, offset⟩ =
        (((run config es).store.occurrencesOf o.key).filter fun x => x.2.access = .write).map
          Location.ofOccurrence := by
    intro uri d o offset hd ho hin
    rw [VariableAnalysis.definitions, hat hd ho hin, Option.map_some, Option.getD_some,
      h.locationsOf_eq hvalid]
    rfl
  refine ⟨⟨hreferences hd ho hin, fun _ _ => Store.mem_occurrencesOf,
    Store.pairwise_occurrencesOf hapart o.key⟩, hdefinitions hd ho hin, ?_, ?_⟩
  · rw [VariableAnalysis.hover, hat hd ho hin, Option.map_some, h.count_eq, h.count_eq]
    rfl
  · intro uri' d' o' offset' hd' ho' hin' hkey
    rw [hreferences hd' ho' hin', hreferences hd ho hin, hdefinitions hd' ho' hin',
      hdefinitions hd ho hin, hkey]
    exact ⟨rfl, rfl⟩

/-- A script that writes a variable and reads it. -/
def writtenRead : Text := "KSR.pv.sets('$var(a)', 'b')\nKSR.pv.get('$var(a)')\n".toList

/-- From the read, both are referred to, and the definition is the write. -/
theorem variableReferences_writtenRead :
    VariableAnalysis.references (run .default [.opened "u:a" writtenRead 1 0]).knowledge
          ⟨.ofText "u:a" writtenRead 1, 42⟩ =
        [⟨"u:a", ⟨⟨0, 13⟩, ⟨0, 20⟩⟩⟩, ⟨"u:a", ⟨⟨1, 12⟩, ⟨1, 19⟩⟩⟩] ∧
      VariableAnalysis.definitions (run .default [.opened "u:a" writtenRead 1 0]).knowledge
          ⟨.ofText "u:a" writtenRead 1, 42⟩ = [⟨"u:a", ⟨⟨0, 13⟩, ⟨0, 20⟩⟩⟩] := by
  have hcanonical : Uri.canonical "u:a" = "u:a" := by decide +kernel
  have hreference : Uri.isReference "u:a" = true := by decide +kernel
  have hget : ∀ {uri d}, (run .default [.opened "u:a" writtenRead 1 0]).store.get? uri = some d ↔
      uri = "u:a" ∧ d = .ofText "u:a" writtenRead 1 := get?_run_opened_iff hcanonical
  have hapart : Occurrence.Apart (Document.ofText "u:a" writtenRead 1).occurrences := by
    decide +kernel
  have hat : ∃ o ∈ (Document.ofText "u:a" writtenRead 1).occurrences, o.span.Contains 42 ∧
      o.key = "var:a" := by
    decide +kernel
  obtain ⟨o, ho, hin, hkey⟩ := hat
  obtain ⟨⟨hreferences, -, -⟩, hdefinitions, -⟩ := variableReferences_run .default _
    (fun _ _ hd => (hget.1 hd).1 ▸ hreference) (fun _ _ hd => (hget.1 hd).2 ▸ hapart)
    (hget.2 ⟨rfl, rfl⟩) ho hin
  rw [hreferences, hdefinitions, hkey]
  decide +kernel

end Session

end RouteScript
