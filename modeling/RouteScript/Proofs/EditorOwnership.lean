import Mathlib.Data.List.Induction
import RouteScript.Proofs.ChangeSummary
import RouteScript.Proofs.Run

/-!
# Documents that belong to the editor

A document that the editor has opened and not closed since is what the editor made of it: the text
it was opened with and the batches of edits since then.  Whatever else happens leaves it alone, since
what is read from the disk is stored under the URI of its path, and that is not touched while it
belongs to the editor.

* `spares_step`: an event that the editor does not send for a document leaves the document alone
  while it belongs to the editor.
* `lastOpened_concat`: how the last opening of a document moves on with each event.
* `isEditorOpen_run_iff`, `exists_document_of_lastOpened`: the documents that belong to the editor,
  and what they hold.
* `editorOwnership_run`: the two, and that nothing else touches these documents.
-/

namespace RouteScript

namespace Event

/-- The editor opens the document with the canonical URI. -/
def Opens (uri : String) : Event → Prop
  | opened uri' .. => Uri.canonical uri' = uri
  | _ => False

/-- The editor closes the document with the canonical URI. -/
def Closes (uri : String) : Event → Prop
  | closed _ uri' => Uri.canonical uri' = uri
  | _ => False

/-- The batch of edits that the editor makes to the document with the canonical URI, and the version
after it. -/
def batch? (uri : String) : Event → Option (List Edit × Int)
  | changed uri' edits version _ =>
    if Uri.canonical uri' = uri then some (edits, version) else none
  | _ => none

/-- The editor sends the event for the document with the canonical URI. -/
def IsFor (uri : String) (e : Event) : Prop := e.Opens uri ∨ e.Closes uri ∨ (e.batch? uri).isSome = true

end Event

namespace Session

variable [Python.Recovery]

/-- A text and its version after batches of edits. -/
def revised (text : Text) (version : Int) (batches : List (List Edit × Int)) : Text × Int :=
  batches.foldl (fun held batch => (batch.1.foldl (fun t e => e.apply t) held.1, batch.2))
    (text, version)

/-- The last time the editor opened the document was with this text and version.  The other events
came after that, and none of them closed the document. -/
def LastOpened (uri : String) (es : List Event) (text : Text) (version : Int)
    (after : List Event) : Prop :=
  ∃ before uri' now, es = before ++ .opened uri' text version now :: after ∧
    Uri.canonical uri' = uri ∧ ∀ e ∈ after, ¬ e.Opens uri ∧ ¬ e.Closes uri

/-- The second session holds the same document under the URI, and it belongs to the editor if it
did. -/
structure Spares (uri : String) (s s' : Session) : Prop where
  isEditorOpen : s'.isEditorOpen uri = s.isEditorOpen uri
  document : s'.store.get? uri = s.store.get? uri

variable {s s' s'' : Session} {uri uri' : String} {config : Config} {es : List Event}

theorem Spares.refl (uri : String) (s : Session) : s.Spares uri s := ⟨rfl, rfl⟩

theorem Spares.trans (h : Spares uri s s') (h' : Spares uri s' s'') : Spares uri s s'' :=
  ⟨h'.isEditorOpen.trans h.isEditorOpen, h'.document.trans h.document⟩

/-! ### Other documents come and go -/

theorem get?_put (s : Session) (d : Document) (uri : String) :
    (s.put d).store.get? uri = if uri = d.uri then some d else s.store.get? uri :=
  Table.get?_insert ..

theorem spares_put {d : Document} (h : d.uri ≠ uri) : Spares uri s (s.put d) := by
  refine ⟨rfl, ?_⟩
  rw [get?_put, if_neg h.symm]

theorem spares_remove (h : uri' ≠ uri) : Spares uri s (s.remove uri') := by
  unfold remove
  split
  · refine ⟨rfl, ?_⟩
    exact (Table.get?_erase ..).trans (if_neg h.symm)
  · exact .refl uri s

theorem spares_load? {disk : Disk} {path : Path} (h : uri' ≠ uri)
    (hl : s.load? disk path uri' = some s') : Spares uri s s' := by
  unfold load? at hl
  split at hl
  · cases hl
    exact spares_put h
  · cases hl

theorem spares_load (disk : Disk) (path : Path) (h : uri' ≠ uri) :
    Spares uri s (s.load disk path uri') := by
  unfold load
  cases hl : s.load? disk path uri' with
  | none => exact .refl uri s
  | some s' => exact spares_load? h hl

/-- A file is not read into a document that belongs to the editor. -/
theorem ofPath_ne (ho : s.isEditorOpen uri = true) {path : Path}
    (hp : ¬ s.isEditorOpen (Uri.ofPath path) = true) : Uri.ofPath path ≠ uri := by
  rintro rfl
  exact hp ho

theorem spares_indexFile (disk : Disk) (n : Nat) (path : Path) (ho : s.isEditorOpen uri = true) :
    Spares uri s (indexFile disk (s, n) path).1 := by
  simp only [indexFile]
  split
  · exact .refl uri s
  · rename_i hp
    cases hl : s.load? disk path (Uri.ofPath path) with
    | none => exact .refl uri s
    | some s' => exact spares_load? (ofPath_ne ho hp) hl

theorem spares_indexFiles (disk : Disk) (paths : List Path) (st : Session × Nat)
    (ho : st.1.isEditorOpen uri = true) :
    Spares uri st.1 (paths.foldl (indexFile disk) st).1 := by
  induction paths generalizing st with
  | nil => exact .refl uri st.1
  | cons path paths ih =>
    have h := spares_indexFile disk st.2 path ho
    exact h.trans (ih _ (h.isEditorOpen.trans ho))

/-- A document that is not stored is not changed. -/
theorem step_changed_of_none (edits : List Edit) (version : Int) (now : Nat)
    (h : s.store.get? (Uri.canonical uri') = none) :
    s.step (.changed uri' edits version now) = s := by
  simp only [step, change, Store.change, Store.changeBy, h]
  rfl

/-- One that is stored gives way to the edited one. -/
theorem step_changed_of_some (edits : List Edit) (version : Int) (now : Nat) {d : Document}
    (h : s.store.get? (Uri.canonical uri') = some d) :
    (s.step (.changed uri' edits version now)).editorOpen = s.editorOpen ∧
      (s.step (.changed uri' edits version now)).store =
        s.store.put (d.edit .silent edits version).1 := by
  simp only [step, change, Store.change, Store.changeBy, h]
  exact ⟨rfl, rfl⟩

/-- What the editor does not send for a document of its own leaves the document alone. -/
theorem spares_step (hk : s.store.Keyed) (ho : s.isEditorOpen uri = true) {e : Event}
    (he : ¬ e.IsFor uri) : Spares uri s (s.step e) := by
  cases e with
  | opened uri' text version now =>
    have hu : Uri.canonical uri' ≠ uri := fun h => he (.inl h)
    refine ⟨?_, (get?_put ..).trans (if_neg hu.symm)⟩
    exact (OrdSet.contains_add ..).trans (by simp [hu.symm, isEditorOpen])
  | changed uri' edits version now =>
    have hu : Uri.canonical uri' ≠ uri := fun h => he (.inr (.inr (by simp [Event.batch?, h])))
    cases hd : s.store.get? (Uri.canonical uri') with
    | none =>
      rw [step_changed_of_none edits version now hd]
      exact .refl uri s
    | some d =>
      obtain ⟨hopen, hstore⟩ := step_changed_of_some edits version now hd
      have hdu : uri ≠ d.uri := hk _ d hd ▸ hu.symm
      refine ⟨congrArg (Table.contains · uri) hopen, ?_⟩
      rw [hstore]
      exact (Table.get?_insert ..).trans (if_neg hdu)
  | closed disk uri' =>
    have hu : Uri.canonical uri' ≠ uri := fun h => he (.inr (.inl h))
    -- the books kept for the editor change first, then the other document
    let s₁ : Session := { s with
      editorOpen := s.editorOpen.erase (Uri.canonical uri')
      debounce := s.debounce.cancel (Uri.canonical uri') }
    have h₁ : Spares uri s s₁ := ⟨by simp [s₁, isEditorOpen, hu.symm], rfl⟩
    refine h₁.trans ?_
    simp only [step, closeDocument]
    cases Uri.toPath? (Uri.canonical uri') with
    | none => exact spares_remove hu
    | some path =>
      simp only
      split
      · exact spares_load disk path hu
      · exact spares_remove hu
  | file disk path event =>
    simp only [step, fileEvent]
    split
    · exact .refl uri s
    · rename_i hp
      rw [Bool.or_eq_true, not_or] at hp
      have hu := ofPath_ne ho hp.2
      cases event with
      | created => exact spares_load disk path hu
      | changed => exact spares_load disk path hu
      | deleted => exact spares_remove hu
  | rootAdded root =>
    simp only [step, addRoot]
    split <;> exact ⟨rfl, rfl⟩
  | rootsQueued disk => exact ⟨rfl, rfl⟩
  | pathsQueued disk paths => exact ⟨rfl, rfl⟩
  | batchRead disk =>
    obtain ⟨h, h'⟩ := spares_indexFiles disk s.queue.nextBatch.1
      ({ s with queue := s.queue.nextBatch.2 }, 0) ho
    exact ⟨h, h'⟩
  | published now => exact ⟨rfl, rfl⟩

/-! ### What belongs to the editor -/

/-- The sessions keep the same books: the documents of the editor, and when diagnostics are due. -/
structure SameBooks (s s' : Session) : Prop where
  editorOpen : s'.editorOpen = s.editorOpen
  debounce : s'.debounce = s.debounce

theorem SameBooks.refl (s : Session) : s.SameBooks s := ⟨rfl, rfl⟩

theorem SameBooks.trans (h : s.SameBooks s') (h' : s'.SameBooks s'') : s.SameBooks s'' :=
  ⟨h'.editorOpen.trans h.editorOpen, h'.debounce.trans h.debounce⟩

theorem sameBooks_remove (s : Session) (uri : String) : s.SameBooks (s.remove uri) := by
  unfold remove
  split <;> exact ⟨rfl, rfl⟩

theorem sameBooks_load? {disk : Disk} {path : Path} (hl : s.load? disk path uri = some s') :
    s.SameBooks s' := by
  unfold load? at hl
  split at hl
  · cases hl
    exact ⟨rfl, rfl⟩
  · cases hl

theorem sameBooks_load (s : Session) (disk : Disk) (path : Path) (uri : String) :
    s.SameBooks (s.load disk path uri) := by
  unfold load
  cases hl : s.load? disk path uri with
  | none => exact .refl s
  | some s' => exact sameBooks_load? hl

theorem sameBooks_indexFiles (disk : Disk) (paths : List Path) (st : Session × Nat) :
    st.1.SameBooks (paths.foldl (indexFile disk) st).1 := by
  induction paths generalizing st with
  | nil => exact .refl st.1
  | cons path paths ih =>
    refine SameBooks.trans ?_ (ih _)
    simp only [indexFile]
    split
    · exact .refl st.1
    · cases hl : st.1.load? disk path (Uri.ofPath path) with
      | none => exact .refl st.1
      | some s' => exact sameBooks_load? hl

/-- Only the editor takes documents and lets go of them. -/
theorem editorOpen_step (s : Session) (e : Event) :
    (s.step e).editorOpen =
      match e with
      | .opened uri .. => s.editorOpen.add (Uri.canonical uri)
      | .closed _ uri => s.editorOpen.erase (Uri.canonical uri)
      | _ => s.editorOpen := by
  cases e with
  | opened uri text version now => rfl
  | changed uri edits version now =>
    cases hd : s.store.get? (Uri.canonical uri) with
    | none => rw [step_changed_of_none edits version now hd]
    | some d => exact (step_changed_of_some edits version now hd).1
  | closed disk uri =>
    simp only [step, closeDocument]
    cases Uri.toPath? (Uri.canonical uri) with
    | none => exact (sameBooks_remove ..).editorOpen
    | some path =>
      simp only
      split
      · exact (sameBooks_load ..).editorOpen
      · exact (sameBooks_remove ..).editorOpen
  | file disk path event =>
    simp only [step, fileEvent]
    split
    · rfl
    · cases event with
      | created => exact (sameBooks_load ..).editorOpen
      | changed => exact (sameBooks_load ..).editorOpen
      | deleted => exact (sameBooks_remove ..).editorOpen
  | rootAdded root =>
    simp only [step, addRoot]
    split <;> rfl
  | rootsQueued disk => rfl
  | pathsQueued disk paths => rfl
  | batchRead disk => exact (sameBooks_indexFiles disk s.queue.nextBatch.1 (_, 0)).editorOpen
  | published now => rfl

/-- A document belongs to the editor from when it is opened until it is closed. -/
theorem isEditorOpen_step {e : Event} :
    (s.step e).isEditorOpen uri = true ↔
      e.Opens uri ∨ (s.isEditorOpen uri = true ∧ ¬ e.Closes uri) := by
  rw [isEditorOpen, editorOpen_step]
  cases e with
  | opened uri' text version now =>
    simp only [OrdSet.contains_add, Event.Opens, Event.Closes, Bool.or_eq_true, decide_eq_true_iff,
      not_false_iff, and_true, eq_comm (a := uri)]
    rfl
  | closed disk uri' =>
    simp only [Table.contains_erase, Event.Opens, Event.Closes, Bool.and_eq_true,
      decide_eq_true_iff, false_or, ne_eq, eq_comm (a := uri), and_comm]
    rfl
  | _ => simp [isEditorOpen, Event.Opens, Event.Closes]

/-! ### Histories -/

omit [Python.Recovery] in
theorem not_lastOpened_nil {text : Text} {version : Int} {after : List Event} :
    ¬ LastOpened uri [] text version after := by
  rintro ⟨before, uri', now, he, -⟩
  simp at he

omit [Python.Recovery] in
/-- The last opening is the event itself, or it was before. -/
theorem lastOpened_concat {e : Event} {text : Text} {version : Int} {after : List Event} :
    LastOpened uri (es ++ [e]) text version after ↔
      (after = [] ∧ ∃ uri' now, e = .opened uri' text version now ∧ Uri.canonical uri' = uri) ∨
        ∃ after', after = after' ++ [e] ∧ LastOpened uri es text version after' ∧
          ¬ e.Opens uri ∧ ¬ e.Closes uri := by
  constructor
  · rintro ⟨before, uri', now, he, hu, ha⟩
    rcases List.eq_nil_or_concat' after with rfl | ⟨after', e', rfl⟩
    · obtain ⟨-, he⟩ := List.append_inj' he rfl
      exact .inl ⟨rfl, uri', now, List.singleton_inj.1 he, hu⟩
    · rw [← List.cons_append, ← List.append_assoc] at he
      obtain ⟨rfl, he'⟩ := List.append_inj' he rfl
      obtain rfl := List.singleton_inj.1 he'
      refine .inr ⟨after', rfl, ⟨before, uri', now, rfl, hu, fun x hx => ?_⟩, ?_⟩
      · exact ha x (List.mem_append_left _ hx)
      · exact ha e (List.mem_append_right _ (List.mem_singleton_self e))
  · rintro (⟨rfl, uri', now, rfl, hu⟩ | ⟨after', rfl, ⟨before, uri', now, rfl, hu, ha⟩, he⟩)
    · exact ⟨es, uri', now, rfl, hu, fun x hx => by cases hx⟩
    · refine ⟨before, uri', now, List.append_assoc .., hu, fun x hx => ?_⟩
      rcases List.mem_append.1 hx with hx | hx
      · exact ha x hx
      · exact List.mem_singleton.1 hx ▸ he

theorem run_concat (config : Config) (es : List Event) (e : Event) :
    run config (es ++ [e]) = (run config es).step e := run_append config es [e]

/-- The documents that belong to the editor are those it opened and did not close since. -/
theorem isEditorOpen_run_iff : (run config es).isEditorOpen uri = true ↔
    ∃ text version after, LastOpened uri es text version after := by
  induction es using List.reverseRecOn with
  | nil =>
    constructor
    · intro h
      cases h
    · rintro ⟨text, version, after, h⟩
      exact absurd h not_lastOpened_nil
  | append_singleton es e ih =>
    rw [run_concat, isEditorOpen_step, ih]
    simp only [lastOpened_concat]
    constructor
    · intro h
      by_cases ho : e.Opens uri
      · cases e with
        | opened uri' text version now => exact ⟨text, version, [], .inl ⟨rfl, uri', now, rfl, ho⟩⟩
        | _ => exact ho.elim
      · obtain ⟨⟨text, version, after, h⟩, hc⟩ := h.resolve_left ho
        exact ⟨text, version, after ++ [e], .inr ⟨after, rfl, h, ho, hc⟩⟩
    · rintro ⟨text, version, after, ⟨-, uri', now, rfl, hu⟩ | ⟨after', -, h, -, hc⟩⟩
      · exact .inl hu
      · exact .inr ⟨⟨text, version, after', h⟩, hc⟩

omit [Python.Recovery] in
theorem revised_concat (text : Text) (version : Int) (batches : List (List Edit × Int))
    (batch : List Edit × Int) : revised text version (batches ++ [batch]) =
      (batch.1.foldl (fun t e => e.apply t) (revised text version batches).1, batch.2) := by
  rw [revised, List.foldl_append]
  rfl

/-- A document that belongs to the editor holds what the editor made of it. -/
theorem exists_document_of_lastOpened {text : Text} {version : Int} {after : List Event}
    (h : LastOpened uri es text version after) :
    ∃ d, (run config es).store.get? uri = some d ∧
      (d.text, d.version) = revised text version (after.filterMap (Event.batch? uri)) := by
  induction es using List.reverseRecOn generalizing after with
  | nil => exact absurd h not_lastOpened_nil
  | append_singleton es e ih =>
    rw [run_concat]
    rcases lastOpened_concat.1 h with ⟨rfl, uri', now, rfl, rfl⟩ | ⟨after', rfl, h', ho, hc⟩
    · exact ⟨.ofText (Uri.canonical uri') text version, (get?_put ..).trans (if_pos rfl), rfl⟩
    · obtain ⟨d, hd, hr⟩ := ih h'
      rw [List.filterMap_append]
      cases hb : e.batch? uri with
      | none =>
        have hf : ¬ e.IsFor uri := by
          rintro (he | he | he)
          · exact ho he
          · exact hc he
          · rw [hb] at he
            cases he
        have hopen : (run config es).isEditorOpen uri = true :=
          isEditorOpen_run_iff.2 ⟨text, version, after', h'⟩
        have hspare := spares_step (sound_run config es).keyed hopen hf
        refine ⟨d, hspare.document.trans hd, ?_⟩
        simp [hb, hr]
      | some batch =>
        cases e with
        | changed uri' edits version' now =>
          obtain ⟨rfl, rfl⟩ : Uri.canonical uri' = uri ∧ (edits, version') = batch := by
            simpa [Event.batch?] using hb
          obtain ⟨-, hstore⟩ := step_changed_of_some edits version' now hd
          refine ⟨(d.edit .silent edits version').1, ?_, ?_⟩
          · have hu : Uri.canonical uri' = d.uri := ((sound_run config es).keyed _ d hd).symm
            rw [hstore]
            exact (Table.get?_insert ..).trans (if_pos hu)
          · rw [List.filterMap_cons_some hb, List.filterMap_nil, revised_concat, ← hr]
            exact congrArg (·, version') (Edit.text_applyAll ..)
        | _ => cases hb

/-- **Editor ownership.**  After every run, the documents that belong to the editor are those it
opened and did not close since.  Such a document is stored, with the text and the version that the
last opening and the batches of edits since then come to.  No event that the editor does not send
for it changes it or takes it away: nothing that happens on the disk, no file that is read, and no
other document that is opened, changed or closed. -/
theorem editorOwnership_run (config : Config) (es : List Event) (uri : String) :
    ((run config es).isEditorOpen uri = true ↔
      ∃ text version after, LastOpened uri es text version after) ∧
    (∀ text version after, LastOpened uri es text version after →
      ∃ d, (run config es).store.get? uri = some d ∧
        (d.text, d.version) = revised text version (after.filterMap (Event.batch? uri))) ∧
    ((run config es).isEditorOpen uri = true → ∀ e : Event, ¬ e.IsFor uri →
      (run config es).Spares uri (run config (es ++ [e]))) := by
  refine ⟨isEditorOpen_run_iff, fun _ _ _ => exists_document_of_lastOpened, fun ho e he => ?_⟩
  rw [run_concat]
  exact spares_step (sound_run config es).keyed ho he

end Session

namespace Session

/-- A document is opened under one spelling of its URI and changed under another, while its file is
deleted and another document is closed. -/
theorem editorOwnership_spellings :
    ∃ d, (run .default [.opened "file:///%c3%a9.py" ['x'] 1 0,
        .file .empty ⟨"/é.py".toList⟩ .deleted, .changed "file:///é.py" [⟨none, ['y']⟩] 2 5,
        .closed .empty "file:///b.py"]).store.get? "file:///%C3%A9.py" = some d ∧
      (d.text, d.version) = (['y'], 2) := by
  have hopened : Uri.canonical "file:///%c3%a9.py" = "file:///%C3%A9.py" := by decide +kernel
  have hchanged : Uri.canonical "file:///é.py" = "file:///%C3%A9.py" := by decide +kernel
  have hclosed : Uri.canonical "file:///b.py" ≠ "file:///%C3%A9.py" := by decide +kernel
  have hafter : ∀ e ∈ [Event.file .empty ⟨"/é.py".toList⟩ .deleted,
      .changed "file:///é.py" [⟨none, ['y']⟩] 2 5, .closed .empty "file:///b.py"],
      ¬ e.Opens "file:///%C3%A9.py" ∧ ¬ e.Closes "file:///%C3%A9.py" := by
    simp [Event.Opens, Event.Closes, hclosed]
  obtain ⟨d, hd, hheld⟩ := (editorOwnership_run .default _ _).2.1 ['x'] 1 _
    ⟨[], _, 0, rfl, hopened, hafter⟩
  refine ⟨d, hd, hheld.trans ?_⟩
  simp only [List.filterMap_cons, List.filterMap_nil, Event.batch?, hchanged, if_pos]
  rfl

end Session

end RouteScript
