import RouteScript.Proofs.CallEdges
import RouteScript.Proofs.ImportResolution

/-!
# Documents that belong to nobody

A document that the editor has not opened was read from the disk, and holds what was read last.
There is one exception: when the editor closes a document whose file is there but cannot be read,
the text that the editor had stays behind, and no one can change it until the file is read.

* `Knowledge.Current.forgets`: nothing is known of a document that is not stored.
* `document_step`: what an event that is not for the editor's text leaves of a document.
* `document_close`: what closing a document leaves of it.
* `closedDocuments_run`: the documents that do not belong to the editor after a run, and what the
  next closing makes of a document.
-/

namespace RouteScript

/-! ### Documents that nothing is known of -/

namespace Knowledge

/-- Nothing is known of the document under the URI: it has no entry in any table, it has no routines
and no calls to or from them, and no import leads to it. -/
structure Forgets (uri : String) (k : Knowledge) : Prop where
  bindings : k.bindings.get? uri = none
  imports : k.imports.get? uri = none
  sites : k.sites.get? uri = none
  indexes : k.indexes.get? uri = none
  callbacks : k.callbacks.get? uri = none
  tables : k.tables.get? uri = none
  statistics : k.statistics.get? uri = none
  routines : ∀ key, k.graph.contains key = true → key.uri ≠ uri
  callees : ∀ a b, b ∈ k.graph.callees a → a.uri ≠ uri ∧ b.uri ≠ uri
  callers : ∀ a b, a ∈ k.graph.callers b → a.uri ≠ uri ∧ b.uri ≠ uri
  names : ∀ name, ∀ key ∈ k.graph.withName name, key.uri ≠ uri
  resolved : ∀ uri' bindings, k.imports.get? uri' = some bindings →
    ∀ b ∈ bindings, b.resolved ≠ some uri

theorem Current.forgets [Python.Recovery] {k : Knowledge} {store : Store} {roots : List Path}
    {uri : String} (h : k.Current ⟨store, roots⟩) (hu : store.get? uri = none) : k.Forgets uri := by
  have hget : ∀ {β : Type} (f : String → Document → β),
      (store.documents.mapValues f).get? uri = none := fun f => by
    rw [Table.get?_mapValues]
    exact congrArg (Option.map (f uri)) hu
  have hroutines : ∀ key, k.graph.contains key = true → key.uri ≠ uri := by
    rintro key hc rfl
    obtain ⟨d, hd, -⟩ := h.contains_graph_iff.1 hc
    rw [hu] at hd
    cases hd
  have hcallees : ∀ a b, b ∈ k.graph.callees a → a.uri ≠ uri ∧ b.uri ≠ uri := fun a b hb => by
    have hab := CallGraph.mem_callees_iff.1 hb
    refine ⟨hroutines a (CallGraph.contains_of_calls hab), hroutines b ?_⟩
    rw [h.linked] at hab
    exact CallGraph.contains_of_calledBy hab
  exact {
    bindings := h.bindings ▸ hget _
    imports := by rw [h.imports, Table.get?_mapValues, h.bindings, hget, Option.map_none]
    sites := h.sites ▸ hget _
    indexes := h.indexes ▸ hget _
    callbacks := h.callbacks ▸ hget _
    tables := h.tables ▸ hget _
    statistics := h.statistics ▸ hget _
    routines := hroutines
    callees := hcallees
    callers := fun a b ha => hcallees a b (h.mem_callers_iff.1 ha)
    names := fun name key hk => hroutines key ((h.named.mem_iff name key).1 hk).2
    resolved := fun uri' bindings hb b hm hr => by
      rw [h.imports, Table.get?_mapValues] at hb
      obtain ⟨written, -, rfl⟩ := Option.map_eq_some_iff.1 hb
      obtain ⟨b', -, rfl⟩ := List.mem_map.1 hm
      have hc : store.contains uri = true := Resolution.known_of_bind hr
      rw [Store.contains, Table.contains_eq_isSome] at hc
      rw [Store.get?] at hu
      rw [hu] at hc
      cases hc }

end Knowledge

namespace Session

variable [Python.Recovery]

/-! ### What is read from the disk -/

/-- The texts that an event reads from the file of a document, one after the other. -/
def reads (s : Session) (uri : String) : Event → List Text
  | .closed disk uri' =>
    if Uri.canonical uri' = uri then
      (((Uri.toPath? uri).filter disk.isFile).bind fun p => (disk.readText p).toOption).toList
    else []
  | .file disk path event =>
    if path.isScript ∧ Uri.ofPath path = uri ∧ ¬ s.isEditorOpen uri ∧ event ≠ .deleted then
      (disk.readText path).toOption.toList
    else []
  | .batchRead disk =>
    if s.isEditorOpen uri then []
    else (s.queue.nextBatch.1.filter fun path => Uri.ofPath path = uri).filterMap fun path =>
      (disk.readText path).toOption
  | _ => []

/-- The texts that a sequence of events reads from the file of a document. -/
def readAll (uri : String) : Session → List Event → List Text
  | _, [] => []
  | s, e :: es => s.reads uri e ++ readAll uri (s.step e) es

/-- The document after texts were read from its file. -/
def loaded (uri : String) (texts : List Text) (held : Option Document) : Option Document :=
  (texts.getLast?.map fun text => .ofText uri text diskVersion).or held

/-- The editor changes only documents that belong to it. -/
def ChangesOwned (config : Config) (es : List Event) : Prop :=
  ∀ before uri edits version now after, es = before ++ .changed uri edits version now :: after →
    (run config before).isEditorOpen (Uri.canonical uri) = true

/-- The document is what the editor had when it closed it, while the file was there but could not be
read.  The file has not been read since. -/
def LeftBehind (config : Config) (uri : String) (es : List Event) (d : Document) : Prop :=
  ∃ before disk uri' path after, es = before ++ .closed disk uri' :: after ∧
    Uri.canonical uri' = uri ∧ Uri.toPath? uri = some path ∧ disk.isFile path = true ∧
    isReadable disk path = false ∧ (run config before).isEditorOpen uri = true ∧
    (run config before).store.get? uri = some d ∧
    readAll uri (run config (before ++ [.closed disk uri'])) after = []

variable {s : Session} {uri : String} {config : Config} {es : List Event}

theorem readAll_append (s : Session) (es es' : List Event) :
    readAll uri s (es ++ es') = readAll uri s es ++ readAll uri (es.foldl step s) es' := by
  induction es generalizing s with
  | nil => rfl
  | cons e es ih => rw [List.cons_append, readAll, ih, readAll, List.append_assoc, List.foldl_cons]

theorem readAll_concat (config : Config) (es : List Event) (e : Event) :
    readAll uri (start config) (es ++ [e]) =
      readAll uri (start config) es ++ (run config es).reads uri e := by
  rw [readAll_append, readAll, readAll, List.append_nil]
  rfl

@[simp] theorem loaded_nil (uri : String) (held : Option Document) :
    loaded uri [] held = held := rfl

theorem loaded_append (texts texts' : List Text) (held : Option Document) :
    loaded uri (texts ++ texts') held = loaded uri texts' (loaded uri texts held) := by
  rw [loaded, List.getLast?_append, Option.map_or, Option.or_assoc]
  rfl

/-! ### What an event leaves of a document -/

theorem get?_load (s : Session) (disk : Disk) (path : Path) (uri : String) :
    (s.load disk path uri).store.get? uri =
      loaded uri (disk.readText path).toOption.toList (s.store.get? uri) := by
  unfold load load?
  cases disk.readText path with
  | ok text => exact (get?_put ..).trans (if_pos rfl)
  | error e => rfl

theorem get?_remove (s : Session) (uri : String) : (s.remove uri).store.get? uri = none := by
  unfold remove
  split
  · exact (Table.get?_erase ..).trans (if_pos rfl)
  · rename_i hc
    rw [Store.contains, Table.contains_eq_isSome] at hc
    exact Option.not_isSome_iff_eq_none.1 hc

/-- The texts of the files that lead to a document are read into it one after the other, unless it
belongs to the editor. -/
theorem get?_indexFiles (disk : Disk) (paths : List Path) (st : Session × Nat)
    (ho : ¬ st.1.isEditorOpen uri = true) :
    (paths.foldl (indexFile disk) st).1.store.get? uri =
      loaded uri ((paths.filter fun path => Uri.ofPath path = uri).filterMap fun path =>
        (disk.readText path).toOption) (st.1.store.get? uri) := by
  induction paths generalizing st with
  | nil => rfl
  | cons path paths ih =>
    have hopen := (sameBooks_indexFiles disk [path] st).editorOpen
    rw [List.foldl_cons, List.foldl_nil] at hopen
    rw [List.foldl_cons, ih _ (by rwa [isEditorOpen, hopen])]
    by_cases hp : Uri.ofPath path = uri
    · have hi : (indexFile disk st path).1.store.get? uri =
          loaded uri (disk.readText path).toOption.toList (st.1.store.get? uri) := by
        rw [← get?_load st.1 disk path uri, load, indexFile, hp]
        simp only [ho, Bool.false_eq_true, if_false]
        cases st.1.load? disk path uri <;> rfl
      rw [hi, ← loaded_append, List.filter_cons_of_pos (by simpa using hp)]
      congr 1
      cases ht : (disk.readText path).toOption <;> simp [ht]
    · have hi : (indexFile disk st path).1.store.get? uri = st.1.store.get? uri := by
        simp only [indexFile]
        split
        · rfl
        · cases hl : st.1.load? disk path (Uri.ofPath path) with
          | none => rfl
          | some s' => exact (spares_load? hp hl).document
      rw [hi, List.filter_cons_of_neg (by simpa using hp)]

/-- Closing a document reads its file into it, or takes it away if there is no file. -/
theorem document_close (s : Session) (disk : Disk) (uri : String) :
    (s.closeDocument disk uri).store.get? (Uri.canonical uri) =
      match (Uri.toPath? (Uri.canonical uri)).filter disk.isFile with
      | some path => loaded (Uri.canonical uri) (disk.readText path).toOption.toList
          (s.store.get? (Uri.canonical uri))
      | none => none := by
  simp only [closeDocument]
  cases Uri.toPath? (Uri.canonical uri) with
  | none => exact get?_remove ..
  | some path =>
    simp only [Option.filter_some]
    split
    · exact get?_load ..
    · exact get?_remove ..

/-- What an event other than an opening or a change of the document leaves of it: what is read, or
else what was there, or nothing. -/
theorem document_step (hk : s.store.Keyed) {e : Event} (ho : ¬ e.Opens uri)
    (hb : e.batch? uri = none) :
    (s.step e).store.get? uri = none ∨
      (s.step e).store.get? uri = loaded uri (s.reads uri e) (s.store.get? uri) := by
  cases e with
  | opened uri' text version now => exact .inr ((get?_put ..).trans (if_neg (Ne.symm ho)))
  | changed uri' edits version now =>
    have hu : Uri.canonical uri' ≠ uri := fun h => by simp [Event.batch?, h] at hb
    refine .inr ?_
    cases hd : s.store.get? (Uri.canonical uri') with
    | none =>
      rw [step_changed_of_none edits version now hd]
      rfl
    | some d =>
      have hdu : uri ≠ d.uri := hk _ d hd ▸ hu.symm
      rw [(step_changed_of_some edits version now hd).2]
      exact (Table.get?_insert ..).trans (if_neg hdu)
  | closed disk uri' =>
    by_cases hu : Uri.canonical uri' = uri
    · subst hu
      have hc := document_close s disk uri'
      simp only [step, reads, if_true, hc]
      cases (Uri.toPath? (Uri.canonical uri')).filter disk.isFile with
      | none => exact .inl rfl
      | some path => exact .inr rfl
    · simp only [reads, if_neg hu, loaded_nil]
      refine .inr ?_
      simp only [step, closeDocument]
      cases Uri.toPath? (Uri.canonical uri') with
      | none => exact (spares_remove hu).document
      | some path =>
        simp only
        split
        · exact (spares_load disk path hu).document
        · exact (spares_remove hu).document
  | file disk path event =>
    by_cases hu : Uri.ofPath path = uri
    · subst hu
      simp only [step, fileEvent, reads]
      by_cases hs : path.isScript = true ∧ ¬ s.isEditorOpen (Uri.ofPath path) = true
      · simp only [hs.1, hs.2, Bool.not_true, Bool.false_or, true_and]
        cases event with
        | deleted => exact .inl (get?_remove ..)
        | created => exact .inr (get?_load ..)
        | changed => exact .inr (get?_load ..)
      · have hskip : (!path.isScript || s.isEditorOpen (Uri.ofPath path)) = true := by
          simpa [imp_iff_not_or] using hs
        rw [if_pos hskip, if_neg fun h => hs ⟨h.1, h.2.2.1⟩]
        exact .inr rfl
    · simp only [reads, hu, false_and, and_false, if_false, loaded_nil]
      refine .inr ?_
      simp only [step, fileEvent]
      split
      · rfl
      · cases event with
        | created => exact (spares_load disk path hu).document
        | changed => exact (spares_load disk path hu).document
        | deleted => exact (spares_remove hu).document
  | rootAdded root =>
    simp only [step, addRoot]
    split <;> exact .inr rfl
  | rootsQueued disk => exact .inr rfl
  | pathsQueued disk paths => exact .inr rfl
  | batchRead disk =>
    refine .inr ?_
    let s₁ : Session := { s with queue := s.queue.nextBatch.2 }
    by_cases hopen : s.isEditorOpen uri = true
    · simp only [reads, hopen, if_true, loaded_nil]
      exact (spares_indexFiles disk s.queue.nextBatch.1 (s₁, 0) hopen).document
    · simp only [reads, hopen, Bool.false_eq_true, if_false]
      exact get?_indexFiles disk s.queue.nextBatch.1 (s₁, 0) hopen
  | published now => exact .inr rfl

/-! ### Histories -/

theorem changesOwned_nil (config : Config) : ChangesOwned config [] := by
  intro before uri edits version now after h
  simp at h

theorem changesOwned_concat {e : Event} : ChangesOwned config (es ++ [e]) ↔
    ChangesOwned config es ∧ ∀ uri edits version now, e = .changed uri edits version now →
      (run config es).isEditorOpen (Uri.canonical uri) = true := by
  constructor
  · refine fun h => ⟨?_, ?_⟩
    · rintro before uri edits version now after rfl
      exact h before uri edits version now (after ++ [e]) (List.append_assoc ..)
    · rintro uri edits version now rfl
      exact h es uri edits version now [] rfl
  · rintro ⟨h, he⟩ before uri edits version now after heq
    rcases List.eq_nil_or_concat' after with rfl | ⟨after, e', rfl⟩
    · obtain ⟨rfl, he'⟩ := List.append_inj' heq rfl
      exact he uri edits version now (List.singleton_inj.1 he')
    · rw [← List.cons_append, ← List.append_assoc] at heq
      obtain ⟨rfl, -⟩ := List.append_inj' heq rfl
      exact h before uri edits version now after rfl

/-- The last event leaves a document to the editor if it opens or changes it. -/
theorem ChangesOwned.isEditorOpen {e : Event} (h : ChangesOwned config (es ++ [e]))
    (he : e.Opens uri ∨ e.batch? uri ≠ none) :
    (run config (es ++ [e])).isEditorOpen uri = true := by
  rw [run_concat, isEditorOpen_step]
  rcases he with he | he
  · exact .inl he
  · cases e with
    | changed uri' edits version now =>
      obtain rfl : Uri.canonical uri' = uri := by
        by_contra hu
        exact he (by simp [Event.batch?, hu])
      exact .inr ⟨(changesOwned_concat.1 h).2 uri' edits version now rfl, id⟩
    | _ => exact absurd rfl he

theorem LeftBehind.concat {e : Event} {d : Document} (h : LeftBehind config uri es d)
    (he : (run config es).reads uri e = []) : LeftBehind config uri (es ++ [e]) d := by
  obtain ⟨before, disk, uri', path, after, rfl, hu, hp, hf, hr, ho, hd, ha⟩ := h
  refine ⟨before, disk, uri', path, after ++ [e], List.append_assoc .., hu, hp, hf, hr, ho, hd, ?_⟩
  rw [readAll_append, ha, List.nil_append, readAll, readAll, List.append_nil,
    ← run_append, List.append_assoc]
  exact he

/-- The text that the editor had stays behind when it closes a document whose file is there and is
not read. -/
theorem leftBehind_of_closes {e : Event} {d : Document} (hc : e.Closes uri)
    (ho : (run config es).isEditorOpen uri = true) (hd : (run config es).store.get? uri = some d)
    (hr : (run config es).reads uri e = []) (hs : (run config (es ++ [e])).store.get? uri ≠ none) :
    LeftBehind config uri (es ++ [e]) d := by
  cases e with
  | closed disk uri' =>
    obtain rfl : Uri.canonical uri' = uri := hc
    rw [run_concat, step, document_close] at hs
    simp only [reads, if_true, Option.toList_eq_nil_iff] at hr
    cases hf : (Uri.toPath? (Uri.canonical uri')).filter disk.isFile with
    | none =>
      rw [hf] at hs
      exact absurd rfl hs
    | some path =>
      rw [hf, Option.bind_some] at hr
      obtain ⟨hp, hfile⟩ := Option.filter_eq_some_iff.1 hf
      refine ⟨es, disk, uri', path, [], rfl, rfl, hp, hfile, ?_, ho, hd, rfl⟩
      unfold isReadable
      cases ht : disk.readText path with
      | ok text =>
        rw [ht] at hr
        cases hr
      | error error => rfl
  | _ => exact hc.elim

/-- A document that does not belong to the editor holds what was read last, or was left behind. -/
theorem disk_text_or_leftBehind (hc : ChangesOwned config es) {d : Document}
    (hd : (run config es).store.get? uri = some d)
    (ho : ¬ (run config es).isEditorOpen uri = true) :
    (d.version = diskVersion ∧ (readAll uri (start config) es).getLast? = some d.text) ∨
      LeftBehind config uri es d := by
  induction es using List.reverseRecOn generalizing d with
  | nil => cases hd
  | append_singleton es e ih =>
    have hopens : ¬ e.Opens uri := fun h => ho (hc.isEditorOpen (.inl h))
    have hbatch : e.batch? uri = none := by
      by_contra h
      exact ho (hc.isEditorOpen (.inr h))
    have hstep := (document_step (sound_run config es).keyed hopens hbatch).resolve_left fun h => by
      rw [run_concat, h] at hd
      cases hd
    have hstored : (run config (es ++ [e])).store.get? uri ≠ none := fun h => by
      rw [h] at hd
      cases hd
    rw [run_concat, hstep] at hd
    rw [readAll_concat, List.getLast?_append]
    cases hl : ((run config es).reads uri e).getLast? with
    | some text =>
      rw [loaded, hl] at hd
      cases hd
      exact .inl ⟨rfl, rfl⟩
    | none =>
      rw [loaded, hl] at hd
      have hr := List.getLast?_eq_none_iff.1 hl
      by_cases hopen : (run config es).isEditorOpen uri = true
      · have hcloses : e.Closes uri := by
          by_contra h
          exact ho (by rw [run_concat]; exact isEditorOpen_step.2 (.inr ⟨hopen, h⟩))
        exact .inr (leftBehind_of_closes hcloses hopen hd hr hstored)
      · rcases ih (changesOwned_concat.1 hc).1 hd hopen with h | h
        · exact .inl h
        · exact .inr (h.concat hr)

/-- **Documents that belong to nobody.**  After a run in which the editor changes only what belongs
to it, every document that does not belong to the editor has the version of a file and holds the
text that was read last, except for one that was left behind.  When the editor closes a document
next, it no longer belongs to the editor.  If there is no file, the document is gone and nothing is
known of it; if the file can be read, its text takes the place of the editor's; and if it cannot,
the document is left as it was. -/
theorem closedDocuments_run (config : Config) (es : List Event) (hc : ChangesOwned config es)
    (uri : String) :
    (∀ d, (run config es).store.get? uri = some d → ¬ (run config es).isEditorOpen uri = true →
      (d.version = diskVersion ∧ (readAll uri (start config) es).getLast? = some d.text) ∨
        LeftBehind config uri es d) ∧
    ∀ disk uri', Uri.canonical uri' = uri →
      ¬ (run config (es ++ [.closed disk uri'])).isEditorOpen uri = true ∧
      match (Uri.toPath? uri).filter disk.isFile with
      | none => (run config (es ++ [.closed disk uri'])).store.get? uri = none ∧
          (run config (es ++ [.closed disk uri'])).knowledge.Forgets uri
      | some path =>
        match disk.readText path with
        | .ok text => (run config (es ++ [.closed disk uri'])).store.get? uri =
            some (.ofText uri text diskVersion)
        | .error _ => (run config (es ++ [.closed disk uri'])).store.get? uri =
            (run config es).store.get? uri := by
  refine ⟨fun d => disk_text_or_leftBehind hc, ?_⟩
  rintro disk uri' rfl
  have hclose : (run config (es ++ [.closed disk uri'])).store.get? (Uri.canonical uri') = _ :=
    (congrArg (fun s : Session => s.store.get? _) (run_concat ..)).trans (document_close ..)
  refine ⟨?_, ?_⟩
  · rw [run_concat, isEditorOpen_step]
    rintro (h | h)
    · exact h
    · exact h.2 rfl
  · cases hp : (Uri.toPath? (Uri.canonical uri')).filter disk.isFile with
    | none =>
      rw [hp] at hclose
      obtain ⟨roots, hcurrent⟩ := (sound_run config (es ++ [.closed disk uri'])).current
      exact ⟨hclose, hcurrent.forgets hclose⟩
    | some path =>
      simp only [hp] at hclose ⊢
      split <;> rename_i ht <;> rw [ht] at hclose <;> exact hclose

end Session

namespace Session

/-- A document is opened, changed under another spelling of its URI, and closed without a file. -/
theorem closedDocuments_without_file :
    (run .default ([.opened "file:///é.py" ['x'] 1 0,
        .changed "file:///%c3%a9.py" [⟨none, ['y']⟩] 2 5] ++
        [.closed .empty "file:///é.py"])).knowledge.Forgets "file:///%C3%A9.py" := by
  have hopened : Uri.canonical "file:///é.py" = "file:///%C3%A9.py" := by decide +kernel
  have hchanged : Uri.canonical "file:///%c3%a9.py" = "file:///%C3%A9.py" := by decide +kernel
  have hfile : (Uri.toPath? "file:///%C3%A9.py").filter Disk.empty.isFile = none := by
    decide +kernel
  have hc : ChangesOwned .default [.opened "file:///é.py" ['x'] 1 0,
      .changed "file:///%c3%a9.py" [⟨none, ['y']⟩] 2 5] := by
    refine changesOwned_concat.2 ⟨changesOwned_concat.2 ⟨changesOwned_nil .default, ?_⟩, ?_⟩
    · rintro uri edits version now h
      cases h
    · rintro uri edits version now h
      cases h
      rw [hchanged, List.nil_append, isEditorOpen_run_iff]
      exact ⟨['x'], 1, [], [], _, 0, rfl, hopened, fun e he => by cases he⟩
  have h := ((closedDocuments_run .default _ hc _).2 .empty "file:///é.py" hopened).2
  rw [hfile] at h
  exact h.2

/-- The text that the editor had is not that of the file, which cannot be read. -/
theorem not_disk_text_of_scrambled_file :
    ¬ ∀ es, ChangesOwned .default es → ∀ uri d, (run .default es).store.get? uri = some d →
      ¬ (run .default es).isEditorOpen uri = true →
      d.version = diskVersion ∧ (readAll uri (start .default) es).getLast? = some d.text := by
  intro h
  let disk : Disk := ⟨[([['a', '.', 'p', 'y']], .file [0xff])], []⟩
  have huri : Uri.canonical "file:///a.py" = "file:///a.py" := by decide +kernel
  have hpath : (Uri.toPath? "file:///a.py").filter disk.isFile = some ⟨"/a.py".toList⟩ := by
    decide +kernel
  have htext : (disk.readText ⟨"/a.py".toList⟩).toOption = none := by decide +kernel
  have hc : ChangesOwned .default ([] ++ [.opened "file:///a.py" ['x'] 1 0] ++
      [.closed disk "file:///a.py"]) := by
    refine changesOwned_concat.2 ⟨changesOwned_concat.2 ⟨changesOwned_nil .default, ?_⟩, ?_⟩
    all_goals
      rintro uri edits version now h
      cases h
  have hd := document_close (run .default [.opened "file:///a.py" ['x'] 1 0]) disk "file:///a.py"
  rw [huri, hpath] at hd
  simp only [htext, Option.toList_none, loaded_nil] at hd
  have hopened : (run .default [.opened "file:///a.py" ['x'] 1 0]).store.get? "file:///a.py" =
      some (.ofText "file:///a.py" ['x'] 1) := by
    refine (get?_put ..).trans ?_
    rw [huri]
    exact if_pos rfl
  have hopen := @isEditorOpen_step _ (run .default [.opened "file:///a.py" ['x'] 1 0])
    "file:///a.py" (.closed disk "file:///a.py")
  refine absurd (h _ hc "file:///a.py" (.ofText "file:///a.py" ['x'] 1) (hd.trans hopened) ?_).1 ?_
  · refine fun ho => (hopen.1 ho).elim id fun ho => ho.2 huri
  · decide

end Session

end RouteScript
