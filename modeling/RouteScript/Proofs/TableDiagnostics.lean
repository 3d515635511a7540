import RouteScript.Proofs.Occurrences
import RouteScript.Proofs.Rounding
import RouteScript.Proofs.Run

/-!
# The findings about hash tables

A hash table is named by the literal of a method of its own module, or by a variable in the literal
of another call, in front of an arrow.  All of a document is kept in one list, and a table that is
read is looked for among the writes in the lists of all documents.  What stands in an interpolation
is found in the literal around it and in that of the call there, so it is kept, and reported, twice.

* `Text.IsBefore`: the part of a text in front of a mark.
* `EngineCall.NamesTable`, `Occurrence.NamesTable`: what counts as the use of a table.
* `EngineCall.tableUses`: the uses in one literal, none of which is repeated.
* `HashTableAnalysis.count_uses`: a use is kept once for each literal that has it.
* `Knowledge.Current.isWritten_table_iff`: the lists of all documents tell whether a stored document
  writes a table.
* `tableDiagnostics_run`: after every run, the findings are those about the uses that read a table
  which is neither declared nor written, by position, one for each literal that has the use.
* `not_once_nestedTable`: a use that is reported twice.
-/

namespace RouteScript

open HashTableAnalysis

/-! ### The text in front of a mark -/

namespace Text

/-- The text goes on with the mark behind the front, and has none further in front; or it has no
mark and is all front. -/
structure IsBefore (mark t front : Text) : Prop where
  ends : front ++ mark <+: t ∨ front = t
  first : ∀ other, other ++ mark <+: t → front <+: other

variable {mark t front : Text}

theorem IsBefore.unique {front' : Text} (h : IsBefore mark t front) (h' : IsBefore mark t front') :
    front = front' := by
  have hle : ∀ {f g : Text}, IsBefore mark t f → IsBefore mark t g → f <+: g := by
    rintro f g hf ⟨hg | rfl, -⟩
    · exact hf.first g hg
    · rcases hf.ends with hf | rfl
      · exact (List.prefix_append f mark).trans hf
      · exact List.prefix_rfl
  exact (hle h h').eq_of_length_le (hle h' h).length_le

theorem isBefore_before (hne : mark ≠ []) (t : Text) : IsBefore mark t (before mark t) := by
  induction t with
  | nil =>
    refine ⟨.inr rfl, fun other h => ?_⟩
    exact absurd (List.append_eq_nil_iff.1 (List.prefix_nil.1 h)).2 hne
  | cons c t ih =>
    have hstrip : (stripFront? mark (c :: t)).isSome = true ↔ mark <+: c :: t := by
      simp only [Option.isSome_iff_exists, stripFront?_eq_some_iff]
      exact ⟨fun ⟨rest, h⟩ => ⟨rest, h.symm⟩, fun ⟨rest, h⟩ => ⟨rest, h.symm⟩⟩
    rw [before]
    split
    · rename_i hmark
      exact ⟨.inl (hstrip.1 hmark), fun other _ => List.nil_prefix⟩
    · rename_i hmark
      refine ⟨ih.ends.imp (fun h => ?_) fun h => by rw [h], fun other h => ?_⟩
      · exact List.cons_prefix_cons.2 ⟨rfl, h⟩
      · cases other with
        | nil => exact absurd (hstrip.2 h) hmark
        | cons c' other =>
          obtain ⟨rfl, hrest⟩ := List.cons_prefix_cons.1 h
          exact List.cons_prefix_cons.2 ⟨rfl, ih.first other hrest⟩

theorem before_eq_iff (hne : mark ≠ []) : before mark t = front ↔ IsBefore mark t front :=
  ⟨fun h => h ▸ isBefore_before hne t, (isBefore_before hne t).unique⟩

end Text

/-! ### What counts as a use -/

/-- The uses in the literal of a call: it names a table, or variables that do. -/
def EngineCall.tableUses (t : Text) (call : EngineCall) : List TableUse :=
  (ofCall? t call).toList ++ (Occurrence.ofCall t call).filterMap ofOccurrence?

/-- The call names the table of the use: it is a call of the module of hash tables, and its literal
is the name. -/
structure EngineCall.NamesTable (t : Text) (call : EngineCall) (u : TableUse) : Prop where
  module_eq : call.module = "htable"
  method_mem : (call.method, u.access) ∈ methods
  table_eq : u.table = String.ofList call.content
  span_eq : u.span = call.contentSpan
  range_eq : u.range = t.rangeOf call.contentSpan

/-- The variable names the table of the use: its class is one of those of hash tables, and what
stands in its payload in front of the arrow is the name.  A table is written by calls that write
variables, and by variables that count. -/
structure Occurrence.NamesTable (o : Occurrence) (u : TableUse) : Prop where
  class_mem : ∃ access, (o.var.className, access) ∈ classes ∧
    (u.access = .write ↔ o.access = .write ∨ access = .write)
  table_eq : ∃ inner front, o.var.inner = some inner ∧ Text.IsBefore ['=', '>'] inner front ∧
    front.trim ≠ [] ∧ u.table = String.ofList front.trim
  span_eq : u.span = o.span
  range_eq : u.range = o.range

namespace HashTableAnalysis

/-- What is found of a name in a list in which no name stands twice. -/
theorem find?_eq_some_iff_mem {l : List (String × Access)} (hl : (l.map Prod.fst).Nodup)
    {name : String} {e : String × Access} :
    l.find? (·.1 == name) = some e ↔ e ∈ l ∧ e.1 = name := by
  constructor
  · intro h
    exact ⟨List.mem_of_find?_eq_some h, by simpa using List.find?_some h⟩
  · rintro ⟨he, rfl⟩
    cases hf : l.find? (·.1 == e.1) with
    | none => exact absurd (beq_self_eq_true e.1) (List.find?_eq_none.1 hf e he)
    | some e' =>
      have hname : e'.1 = e.1 := by simpa using List.find?_some hf
      rw [List.inj_on_of_nodup_map hl (List.mem_of_find?_eq_some hf) he hname]

theorem nodup_methods : (methods.map Prod.fst).Nodup := by decide

theorem nodup_classes : (classes.map Prod.fst).Nodup := by decide

theorem ofCall?_eq_some_iff {t : Text} {call : EngineCall} {u : TableUse} :
    ofCall? t call = some u ↔ call.NamesTable t u := by
  have haccess : ∀ access, accessOf? call = some access ↔
      call.module = "htable" ∧ (call.method, access) ∈ methods := by
    intro access
    simp only [accessOf?, Option.ite_none_right_eq_some, beq_iff_eq, Option.map_eq_some_iff,
      find?_eq_some_iff_mem nodup_methods]
    refine and_congr_right fun _ => ?_
    exact ⟨fun ⟨e, ⟨he, hname⟩, ha⟩ => hname ▸ ha ▸ he, fun h => ⟨_, ⟨h, rfl⟩, rfl⟩⟩
  simp only [ofCall?, Option.map_eq_some_iff, haccess]
  constructor
  · rintro ⟨access, ⟨hmodule, hmethod⟩, rfl⟩
    exact ⟨hmodule, hmethod, rfl, rfl, rfl⟩
  · rintro ⟨hmodule, hmethod, htable, hspan, hrange⟩
    refine ⟨u.access, ⟨hmodule, hmethod⟩, ?_⟩
    rw [← htable, ← hrange, ← hspan]

theorem tableName?_eq_some_iff {v : PseudoVar} {table : Text} : v.tableName? = some table ↔
    ∃ inner front, v.inner = some inner ∧ Text.IsBefore ['=', '>'] inner front ∧
      front.trim ≠ [] ∧ table = front.trim := by
  simp only [PseudoVar.tableName?, Option.bind_eq_bind, Option.bind_eq_some_iff,
    ← Text.before_eq_iff (List.cons_ne_nil '=' ['>']), Option.ite_none_left_eq_some,
    List.isEmpty_iff, Option.some.injEq, exists_and_left, exists_eq_left', eq_comm (a := table)]

theorem ofOccurrence?_eq_some_iff {o : Occurrence} {u : TableUse} :
    ofOccurrence? o = some u ↔ o.NamesTable u := by
  have hwrite : ∀ access : Access, ((if o.isWrite then Access.write else access) = u.access) ↔
      (u.access = .write ↔ o.access = .write ∨ access = .write) := by
    intro access
    rw [Occurrence.isWrite]
    cases o.access <;> cases access <;> cases u.access <;> decide
  simp only [ofOccurrence?, Option.bind_eq_bind, Option.bind_eq_some_iff, tableName?_eq_some_iff,
    find?_eq_some_iff_mem nodup_classes]
  constructor
  · rintro ⟨⟨cls, access⟩, ⟨hclass, rfl⟩, table, ⟨inner, front, hinner, hfront, hne, rfl⟩, hu⟩
    cases hu
    exact ⟨⟨access, hclass, (hwrite access).1 rfl⟩, ⟨inner, front, hinner, hfront, hne, rfl⟩, rfl,
      rfl⟩
  · rintro ⟨⟨access, hclass, haccess⟩, ⟨inner, front, hinner, hfront, hne, htable⟩, hspan, hrange⟩
    refine ⟨_, ⟨hclass, rfl⟩, _, ⟨inner, front, hinner, hfront, hne, rfl⟩, ?_⟩
    rw [← htable, ← hspan, ← hrange, (hwrite access).2 haccess]

/-- The uses of a document are those of its calls and of its variables. -/
theorem perm_uses [Python.Recovery] (d : Document) : (uses d).Perm
    (d.engineCalls.filterMap (ofCall? d.text) ++ d.occurrences.filterMap ofOccurrence?) :=
  List.mergeSort_perm ..

/-- The uses of a document are those in its literals. -/
theorem perm_uses_flatMap [Python.Recovery] (d : Document) :
    (uses d).Perm (d.engineCalls.flatMap fun call => call.tableUses d.text) := by
  refine (perm_uses d).trans ?_
  rw [List.filterMap_eq_flatMap_toList, Document.occurrences, List.filterMap_flatMap]
  exact List.flatMap_append_perm ..

/-- A call that names a table itself names no variables. -/
theorem ofCall_eq_nil_of_ofCall? {t : Text} {call : EngineCall} {u : TableUse}
    (h : ofCall? t call = some u) : Occurrence.ofCall t call = [] := by
  have hmethod : ∀ e ∈ Access.methods, e.1 ≠ "htable" := by decide
  have hnone : Access.ofMethod? call.module call.method = none := by
    refine Option.map_eq_none_iff.2 (List.find?_eq_none.2 fun e he hsame => hmethod e he ?_)
    simp only [Bool.and_eq_true, beq_iff_eq] at hsame
    rw [hsame.1, (ofCall?_eq_some_iff.1 h).module_eq]
  rw [Occurrence.ofCall, hnone]

/-- A use in the literal of a call lies in it. -/
theorem encloses_of_mem_tableUses [Python.Recovery] {d : Document} {call : EngineCall}
    {u : TableUse} (hcall : call ∈ d.engineCalls) (h : u ∈ call.tableUses d.text) :
    call.contentSpan.Encloses u.span ∧ u.span.start ≤ u.span.stop := by
  rcases List.mem_append.1 h with h | h
  · rw [(ofCall?_eq_some_iff.1 (Option.mem_toList.1 h)).span_eq]
    obtain ⟨front, rest, -, hstart, hstop⟩ := Document.cut_of_mem_engineCalls hcall
    rw [Text.bytes_append] at hstop
    exact ⟨⟨Nat.le_refl _, Nat.le_refl _⟩, by omega⟩
  · obtain ⟨o, ho, hu⟩ := List.mem_filterMap.1 h
    rw [(ofOccurrence?_eq_some_iff.1 hu).span_eq]
    obtain ⟨hstart, hlt, hstop⟩ := Document.span_of_mem_ofCall hcall ho
    exact ⟨⟨hstart, hstop⟩, Nat.le_of_lt hlt⟩

/-- No use in the literal of a call is repeated. -/
theorem nodup_tableUses [Python.Recovery] {d : Document} {call : EngineCall}
    (hcall : call ∈ d.engineCalls) : (call.tableUses d.text).Nodup := by
  rw [EngineCall.tableUses]
  cases hown : ofCall? d.text call with
  | some u =>
    rw [ofCall_eq_nil_of_ofCall? hown]
    exact List.nodup_singleton u
  | none =>
    -- the variables in the literal follow one another
    refine List.pairwise_filterMap.2 ((Occurrence.apart_ofCall d.text call).imp_of_mem ?_)
    intro a b ha _ hab u hu u' hu' hsame
    have hlt := (Document.span_of_mem_ofCall hcall ha).2.1
    rw [← (ofOccurrence?_eq_some_iff.1 hu).span_eq, hsame,
      (ofOccurrence?_eq_some_iff.1 hu').span_eq] at hlt hab
    omega

/-- If no part repeats an element, there are as many of it in all as parts that have it. -/
theorem count_flatMap_of_nodup {α β : Type} [DecidableEq β] {parts : α → List β} {l : List α}
    (h : ∀ a ∈ l, (parts a).Nodup) (b : β) :
    (l.flatMap parts).count b = l.countP fun a => b ∈ parts a := by
  induction l with
  | nil => rfl
  | cons a l ih =>
    rw [List.flatMap_cons, List.count_append, (h a List.mem_cons_self).count,
      ih fun a ha => h a (List.mem_cons_of_mem _ ha), List.countP_cons, Nat.add_comm]
    simp only [decide_eq_true_eq]

/-- A use is kept once for each literal that has it. -/
theorem count_uses [Python.Recovery] (d : Document) (u : TableUse) : (uses d).count u =
    d.engineCalls.countP fun call => u ∈ call.tableUses d.text := by
  rw [(perm_uses_flatMap d).count_eq, count_flatMap_of_nodup fun _ => nodup_tableUses]

/-- In a module, literals that have a use in common lie in one another. -/
theorem pairwise_tableUses [Python.Recovery] {d : Document} (h : d.hasError = false) :
    d.engineCalls.Pairwise fun outer inner => ∀ u ∈ outer.tableUses d.text,
      u ∈ inner.tableUses d.text → outer.contentSpan.Encloses inner.contentSpan := by
  refine (Document.pairwise_contentSpan_of_hasError h).imp_of_mem ?_
  rintro outer inner houter hinner ⟨hstart, hbehind | hinside⟩ u hu hu'
  · obtain ⟨⟨-, hstop⟩, hle⟩ := encloses_of_mem_tableUses houter hu
    obtain ⟨⟨hstart', -⟩, -⟩ := encloses_of_mem_tableUses hinner hu'
    omega
  · exact ⟨Nat.le_of_lt hstart, Nat.le_of_lt hinside⟩

theorem range_eq_of_mem_uses [Python.Recovery] {d : Document} {u : TableUse} (h : u ∈ uses d) :
    u.range = d.text.rangeOf u.span := by
  rcases List.mem_append.1 ((perm_uses d).mem_iff.1 h) with h | h
  · obtain ⟨call, -, hu⟩ := List.mem_filterMap.1 h
    have hnames := ofCall?_eq_some_iff.1 hu
    rw [hnames.range_eq, hnames.span_eq]
  · obtain ⟨o, ho, hu⟩ := List.mem_filterMap.1 h
    have hnames := ofOccurrence?_eq_some_iff.1 hu
    rw [hnames.range_eq, hnames.span_eq, Document.range_eq_of_mem_occurrences ho]

/-- The uses of a document are kept by position. -/
theorem pairwise_uses [Python.Recovery] (d : Document) : (uses d).Pairwise fun a b =>
    a.span.start ≤ b.span.start ∧ a.range.start.le b.range.start = true := by
  have hsorted : (uses d).Pairwise fun a b => a.span.start ≤ b.span.start := by
    refine (List.pairwise_mergeSort (fun a b c hab hbc => ?_) (fun a b => ?_) _).imp
      of_decide_eq_true
    · exact decide_eq_true (Nat.le_trans (of_decide_eq_true hab) (of_decide_eq_true hbc))
    · simpa using Nat.le_total a.span.start b.span.start
  refine hsorted.imp_of_mem fun ha hb hab => ⟨hab, ?_⟩
  rw [range_eq_of_mem_uses ha, range_eq_of_mem_uses hb]
  exact d.text.positionOf_mono hab

end HashTableAnalysis

/-! ### The findings -/

/-- Some stored document writes the hash table. -/
def Store.WritesTable [Python.Recovery] (store : Store) (table : String) : Prop :=
  ∃ uri d, store.get? uri = some d ∧ ∃ u ∈ uses d, u.access = .write ∧ u.table = table

instance [Python.Recovery] (store : Store) (table : String) : Decidable (store.WritesTable table) :=
  decidable_of_iff
    (∃ d ∈ store.documents.values, ∃ u ∈ uses d, u.access = .write ∧ u.table = table)
    Store.exists_mem_values_iff

/-- The uses of a document that read a table which has a name, is not declared, and is not written
by a stored document. -/
def Document.unwrittenTables [Python.Recovery] (d : Document) (store : Store)
    (declared : List String) : List TableUse :=
  (uses d).filter fun u =>
    u.access = .read ∧ u.table ≠ "" ∧ u.table ∉ declared ∧ ¬ store.WritesTable u.table

/-- A use that is reported is reported once for each literal that has it. -/
theorem Document.count_unwrittenTables [Python.Recovery] {d : Document} {store : Store}
    {declared : List String} {u : TableUse} (h : u ∈ d.unwrittenTables store declared) :
    (d.unwrittenTables store declared).count u =
      d.engineCalls.countP fun call => u ∈ call.tableUses d.text :=
  (List.count_filter (a := u) (List.mem_filter.1 h).2).trans (count_uses d u)

/-- No use is reported twice if and only if no two literals have one that is reported. -/
theorem Document.nodup_unwrittenTables_iff [Python.Recovery] {d : Document} {store : Store}
    {declared : List String} : (d.unwrittenTables store declared).Nodup ↔
      d.engineCalls.Pairwise fun outer inner => ∀ u ∈ d.unwrittenTables store declared,
        u ∈ outer.tableUses d.text → u ∉ inner.tableUses d.text := by
  have hmem : ∀ {u call}, call ∈ d.engineCalls → u ∈ call.tableUses d.text → u ∈ uses d :=
    fun hcall hu => (perm_uses_flatMap d).mem_iff.2 (List.mem_flatMap_of_mem hcall hu)
  rw [unwrittenTables, ((perm_uses_flatMap d).filter _).nodup_iff, List.filter_flatMap,
    List.nodup_flatMap, and_iff_right fun call hcall => (nodup_tableUses hcall).filter _]
  refine List.Pairwise.iff_of_mem fun {outer inner} houter _ => ?_
  simp only [Function.onFun, List.Disjoint, List.mem_filter]
  exact ⟨fun h u hu ho hi => h ⟨ho, hu.2⟩ ⟨hi, hu.2⟩,
    fun h u ho hi => h u ⟨hmem houter ho.1, ho.2⟩ ho.1 hi.1⟩

/-- The finding about a use that reads a table which is not written. -/
def TableUse.unwritten (u : TableUse) : Diagnostic :=
  .ofFinding u.range .warning "htable-never-written"
    ("Hash table `" ++ u.table ++ "` is read but never written")

namespace Knowledge

variable [Python.Recovery] {store : Store} {roots : List Path} {k : Knowledge}

/-- A table counts as written if it is declared or a stored document writes it. -/
theorem Current.isWritten_table_iff (h : k.Current ⟨store, roots⟩) {declared : List String}
    {table : String} : isWritten (OrdSet.ofList declared) k table = true ↔
      table ∈ declared ∨ store.WritesTable table := by
  rw [isWritten, Bool.or_eq_true, OrdSet.contains_ofList, decide_eq_true_iff]
  refine or_congr_right ?_
  simp only [usesOfTable, List.any_eq_true, List.mem_filter, List.mem_flatten,
    Table.mem_values_iff, h.tables, Table.get?_mapValues, Option.map_eq_some_iff, beq_iff_eq,
    Store.WritesTable, Store.get?]
  constructor
  · rintro ⟨u, ⟨⟨_, ⟨uri, d, hd, rfl⟩, hu⟩, htable⟩, hwrite⟩
    exact ⟨uri, d, hd, u, hu, hwrite, htable⟩
  · rintro ⟨uri, d, hd, u, hu, hwrite, htable⟩
    exact ⟨u, ⟨⟨_, ⟨uri, d, hd, rfl⟩, hu⟩, htable⟩, hwrite⟩

/-- The findings about a stored document, from knowledge that is up to date. -/
theorem Current.tableDiagnostics_eq (h : k.Current ⟨store, roots⟩) (declared : List String)
    {d : Document} (hd : store.get? d.uri = some d) :
    HashTableAnalysis.diagnostics (OrdSet.ofList declared) k d =
      (d.unwrittenTables store declared).map TableUse.unwritten := by
  have huses : k.tables.usesOf d.uri = uses d := by
    rw [h.tables]
    exact Store.usesOf_mapValues uses hd
  rw [HashTableAnalysis.diagnostics, huses, Document.unwrittenTables]
  refine congrArg (List.map _) (List.filter_congr fun u _ => ?_)
  rw [Bool.eq_iff_iff, decide_eq_true_iff]
  simp only [Bool.and_eq_true, beq_iff_eq, Bool.not_eq_true', ← Bool.not_eq_true,
    h.isWritten_table_iff, not_or, String.isEmpty_iff, and_assoc]

end Knowledge

namespace Session

/-- **The findings about hash tables are exact.**  After every run, a stored document is told of
each of its uses that reads a table which has a name, is neither declared nor written by a stored
document, by position, and of nothing else.  Its uses are those of the calls that name a table and
of the variables that name one.  A use is reported once for each call that has it in its literal, so
each is reported exactly once if and only if no two calls have one in common that is reported.  In a
module, calls have a use in common only where the literal of one is part of that of the other. -/
theorem tableDiagnostics_run [Python.Recovery] (config : Config) (es : List Event) {uri : String}
    {d : Document} (hd : (run config es).store.get? uri = some d) :
    let declared := (run config es).config.declaredTables
    let reported := d.unwrittenTables (run config es).store config.declaredTables
    (HashTableAnalysis.analyzer (OrdSet.ofList declared)).diagnostics (run config es).knowledge d =
        .value (reported.map TableUse.unwritten) ∧
      (uses d).Perm
        (d.engineCalls.filterMap (ofCall? d.text) ++ d.occurrences.filterMap ofOccurrence?) ∧
      (uses d).Pairwise (fun a b =>
        a.span.start ≤ b.span.start ∧ a.range.start.le b.range.start = true) ∧
      (∀ call u, ofCall? d.text call = some u ↔ call.NamesTable d.text u) ∧
      (∀ o u, ofOccurrence? o = some u ↔ o.NamesTable u) ∧
      (∀ u ∈ reported, reported.count u =
        d.engineCalls.countP fun call => u ∈ call.tableUses d.text) ∧
      (reported.Nodup ↔ d.engineCalls.Pairwise fun outer inner => ∀ u ∈ reported,
        u ∈ outer.tableUses d.text → u ∉ inner.tableUses d.text) ∧
      (d.hasError = false → d.engineCalls.Pairwise fun outer inner =>
        ∀ u ∈ outer.tableUses d.text, u ∈ inner.tableUses d.text →
          outer.contentSpan.Encloses inner.contentSpan) := by
  intro declared reported
  have hs := sound_run config es
  obtain ⟨roots, hc⟩ := hs.current
  obtain rfl := hs.keyed uri d hd
  have hdeclared : declared = config.declaredTables :=
    congrArg Config.declaredTables (config_run config es)
  refine ⟨?_, perm_uses d, pairwise_uses d, fun _ _ => ofCall?_eq_some_iff,
    fun _ _ => ofOccurrence?_eq_some_iff, fun _ => Document.count_unwrittenTables,
    Document.nodup_unwrittenTables_iff, pairwise_tableUses⟩
  rw [hdeclared]
  exact congrArg Outcome.value (hc.tableDiagnostics_eq config.declaredTables hd)

/-- A script that reads a table and does not write it. -/
def unwrittenTable : Text := "KSR.pv.get('$sht(a =>k)')".toList

/-- The name of the table is what stands in front of the arrow, without the blank. -/
theorem tableDiagnostics_unwrittenTable :
    (HashTableAnalysis.analyzer (OrdSet.ofList
        (run .default [.opened "u:a" unwrittenTable 1 0]).config.declaredTables)).diagnostics
        (run .default [.opened "u:a" unwrittenTable 1 0]).knowledge
        (.ofText "u:a" unwrittenTable 1) =
      .value [.ofFinding ⟨⟨0, 12⟩, ⟨0, 23⟩⟩ .warning "htable-never-written"
        "Hash table `a` is read but never written"] := by
  have hd : (run .default [.opened "u:a" unwrittenTable 1 0]).store.get? "u:a" =
      some (.ofText "u:a" unwrittenTable 1) :=
    (get?_run_opened_iff (by decide +kernel)).2 ⟨rfl, rfl⟩
  rw [(tableDiagnostics_run .default _ hd).1]
  decide +kernel

/-- A script that reads a table in a literal that is part of another literal. -/
def nestedTable : Text := "KSR.pv.get(f\"\x7bKSR.pv.get('$sht(a=>k)')\x7d\")\n".toList

/-- The only use of a table is reported twice. -/
theorem not_once_nestedTable :
    (∀ u ∈ uses (.ofText "u:a" nestedTable 1), u = ⟨"a", .read, ⟨26, 36⟩, ⟨0, 26⟩, ⟨0, 36⟩⟩) ∧
      let found : Diagnostic := .ofFinding ⟨⟨0, 26⟩, ⟨0, 36⟩⟩ .warning "htable-never-written"
        "Hash table `a` is read but never written"
      (HashTableAnalysis.analyzer (OrdSet.ofList
          (run .default [.opened "u:a" nestedTable 1 0]).config.declaredTables)).diagnostics
          (run .default [.opened "u:a" nestedTable 1 0]).knowledge (.ofText "u:a" nestedTable 1) =
        .value [found, found] := by
  obtain ⟨u, hu⟩ : ∃ u : TableUse, u = ⟨"a", .read, ⟨26, 36⟩, ⟨0, 26⟩, ⟨0, 36⟩⟩ := ⟨_, rfl⟩
  have huses : uses (.ofText "u:a" nestedTable 1) = List.replicate 2 u := by
    refine List.perm_replicate.1 ((perm_uses _).trans (List.Perm.of_eq ?_))
    rw [hu]
    decide +kernel
  have hstored : ∀ {uri d}, (run .default [.opened "u:a" nestedTable 1 0]).store.get? uri = some d ↔
      uri = "u:a" ∧ d = .ofText "u:a" nestedTable 1 := get?_run_opened_iff (by decide +kernel)
  have hunwritten : ¬ (run .default [.opened "u:a" nestedTable 1 0]).store.WritesTable u.table := by
    rintro ⟨uri, d, hd, u', hu', hwrite, -⟩
    obtain ⟨-, rfl⟩ := hstored.1 hd
    rw [huses] at hu'
    rw [List.eq_of_mem_replicate hu', hu] at hwrite
    cases hwrite
  obtain ⟨roots, hc⟩ := (sound_run .default [.opened "u:a" nestedTable 1 0]).current
  refine ⟨fun u' hu' => ?_, ?_⟩
  · rw [huses] at hu'
    exact hu ▸ List.eq_of_mem_replicate hu'
  · refine congrArg Outcome.value ((hc.tableDiagnostics_eq [] (hstored.2 ⟨rfl, rfl⟩)).trans ?_)
    have hreported : u.access = .read ∧ u.table ≠ "" ∧ u.table ∉ ([] : List String) := by
      rw [hu]
      decide
    rw [Document.unwrittenTables, huses, List.filter_replicate_of_pos, hu]
    · rfl
    · exact decide_eq_true ⟨hreported.1, hreported.2.1, hreported.2.2, hunwritten⟩

end Session

end RouteScript
