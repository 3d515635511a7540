import RouteScript.Proofs.Knowledge
import RouteScript.Proofs.Uri
import RouteScript.Session

/-!
# Runs of a session

A run is a sequence of events, each made by the editor, by the disk or by the analysis itself, in
any order.  Whatever an event does, it comes down to documents being put and removed one after the
other (`Becomes`), so an invariant of runs has to be shown for these two only.

* `sound_run`: after every run, the documents are stored under their canonical URIs and the
  knowledge is what they say, up to roots that were added since.
* `upToDate_run`: after a run that is settled, nothing is left to be found anew.
-/

namespace RouteScript

open Knowledge

/-- Something that happens in a session. -/
inductive Event where
  | opened (uri : String) (text : Text) (version : Int) (now : Nat)
  | changed (uri : String) (edits : List Edit) (version : Int) (now : Nat)
  | closed (disk : Disk) (uri : String)
  | file (disk : Disk) (path : Path) (event : FileEvent)
  | rootAdded (root : Path)
  | rootsQueued (disk : Disk)
  | pathsQueued (disk : Disk) (paths : List Path)
  | batchRead (disk : Disk)
  | published (now : Nat)

namespace Session

variable [Python.Recovery]

/-- The session after an event.  A document that is not known cannot be changed. -/
def step (s : Session) : Event → Session
  | .opened uri text version now => s.openDocument uri text version now
  | .changed uri edits version now =>
    match s.change uri edits version now with
    | .ok s' => s'
    | .error _ => s
  | .closed disk uri => s.closeDocument disk uri
  | .file disk path event => s.fileEvent disk path event
  | .rootAdded root => s.addRoot root
  | .rootsQueued disk => (s.enqueueRoots disk).1
  | .pathsQueued disk paths => (s.enqueuePaths disk paths).1
  | .batchRead disk => (s.indexBatch disk).1
  | .published now => (s.takeDue now).2

/-- The session after a sequence of events. -/
def run (config : Config) (es : List Event) : Session := es.foldl step (start config)

/-- The file of the path can be read as a text. -/
def isReadable (disk : Disk) (path : Path) : Bool :=
  match disk.readText path with
  | .ok _ => true
  | .error _ => false

/-- The event analyzes or removes a document. -/
def touches (s : Session) : Event → Bool
  | .opened .. => true
  | .changed uri .. => s.store.contains (Uri.canonical uri)
  | .closed disk uri =>
    match Uri.toPath? (Uri.canonical uri) with
    | some path =>
      if disk.isFile path then isReadable disk path else s.store.contains (Uri.canonical uri)
    | none => s.store.contains (Uri.canonical uri)
  | .file disk path event =>
    path.isScript && !s.isEditorOpen (Uri.ofPath path) &&
      match event with
      | .created | .changed => isReadable disk path
      | .deleted => s.store.contains (Uri.ofPath path)
  | .batchRead disk => 0 < (s.indexBatch disk).2
  | .rootAdded _ | .rootsQueued _ | .pathsQueued .. | .published _ => false

/-- After the last root was added, some document was analyzed or removed. -/
def Settled (config : Config) (es : List Event) : Prop :=
  (∀ root, .rootAdded root ∉ es) ∨
    ∃ before e after, es = before ++ e :: after ∧ (run config before).touches e = true ∧
      ∀ root, .rootAdded root ∉ after

/-! ### What an event can do -/

/-- The sessions have the same documents, roots and knowledge. -/
structure SameCore (s s' : Session) : Prop where
  config : s'.config = s.config
  store : s'.store = s.store
  knowledge : s'.knowledge = s.knowledge
  workspaceRoots : s'.workspaceRoots = s.workspaceRoots

/-- The second session is the first after documents were put and removed one after the other; the
flag tells whether any were. -/
inductive Becomes : Session → Bool → Session → Prop
  | aside {s s' : Session} : s.SameCore s' → Becomes s false s'
  | put {s s' : Session} (d : Document) :
    Uri.canonical d.uri = d.uri → (s.put d).SameCore s' → Becomes s true s'
  | remove {s s' : Session} (uri : String) :
    s.store.contains uri = true → (s.remove uri).SameCore s' → Becomes s true s'
  | trans {s s' s'' : Session} {b c : Bool} :
    Becomes s b s' → Becomes s' c s'' → Becomes s (b || c) s''

variable {s s' : Session} {config : Config} {es : List Event}

theorem SameCore.refl (s : Session) : s.SameCore s := ⟨rfl, rfl, rfl, rfl⟩

theorem Becomes.of_sameCore {s₁ : Session} {b : Bool} (h : s.SameCore s₁) (hb : s₁.Becomes b s') :
    s.Becomes b s' := by
  rw [← Bool.false_or b]
  exact (Becomes.aside h).trans hb

theorem becomes_load? (s : Session) (disk : Disk) (path : Path) {uri : String}
    (hu : Uri.canonical uri = uri) :
    match s.load? disk path uri with
    | some s' => isReadable disk path = true ∧ s.Becomes true s'
    | none => isReadable disk path = false := by
  unfold load? isReadable
  cases disk.readText path with
  | ok text => exact ⟨rfl, .put (.ofText uri text diskVersion) hu (.refl _)⟩
  | error e => rfl

theorem becomes_load {disk : Disk} {path : Path} {uri : String} (hu : Uri.canonical uri = uri) :
    s.Becomes (isReadable disk path) (s.load disk path uri) := by
  have h := becomes_load? s disk path hu
  unfold load
  cases hl : s.load? disk path uri with
  | some s' =>
    rw [hl] at h
    rw [h.1]
    exact h.2
  | none =>
    rw [hl] at h
    rw [show isReadable disk path = false from h]
    exact .aside (.refl s)

theorem becomes_remove (s : Session) (uri : String) :
    s.Becomes (s.store.contains uri) (s.remove uri) := by
  cases hc : s.store.contains uri with
  | true => exact .remove uri hc (.refl _)
  | false =>
    have : s.remove uri = s := by rw [remove, hc]; rfl
    rw [this]
    exact .aside (.refl s)

/-- Reading files puts documents, as many as are counted. -/
theorem becomes_indexFiles (disk : Disk) (paths : List Path) (st : Session × Nat) :
    st.2 ≤ (paths.foldl (indexFile disk) st).2 ∧
      st.1.Becomes (decide (st.2 < (paths.foldl (indexFile disk) st).2))
        (paths.foldl (indexFile disk) st).1 := by
  induction paths generalizing st with
  | nil =>
    refine ⟨Nat.le_refl _, ?_⟩
    rw [List.foldl_nil, decide_eq_false (Nat.lt_irrefl _)]
    exact .aside (.refl _)
  | cons path paths ih =>
    obtain ⟨s, n⟩ := st
    have hl := becomes_load? s disk path (Uri.canonical_ofPath path)
    have hskip : ∀ {st' : Session × Nat}, st' = (s, n) → indexFile disk (s, n) path = st' →
        n ≤ ((path :: paths).foldl (indexFile disk) (s, n)).2 ∧
        s.Becomes (decide (n < ((path :: paths).foldl (indexFile disk) (s, n)).2))
          ((path :: paths).foldl (indexFile disk) (s, n)).1 := by
      rintro _ rfl hi
      rw [List.foldl_cons, hi]
      exact ih (s, n)
    by_cases ho : s.isEditorOpen (Uri.ofPath path) = true
    · exact hskip rfl (by simp only [indexFile, ho, if_true])
    · cases h : s.load? disk path (Uri.ofPath path) with
      | none => exact hskip rfl (by simp only [indexFile, ho, h, if_false, Bool.false_eq_true])
      | some s' =>
        have hi : indexFile disk (s, n) path = (s', n + 1) := by
          simp only [indexFile, ho, h, if_false, Bool.false_eq_true]
        rw [h] at hl
        rw [List.foldl_cons, hi]
        obtain ⟨hle, hb⟩ := ih (s', n + 1)
        simp only at hle
        refine ⟨by simp only; omega, ?_⟩
        have := hl.2.trans hb
        rw [Bool.true_or] at this
        rwa [decide_eq_true (by simp only; omega)]

/-- What an event other than a new root can do. -/
theorem becomes_step (hk : s.store.Keyed) {e : Event} (he : ∀ root, e ≠ .rootAdded root) :
    s.Becomes (s.touches e) (s.step e) := by
  cases e with
  | opened uri text version now =>
    exact .put (.ofText (Uri.canonical uri) text version) (Uri.canonical_canonical uri)
      ⟨rfl, rfl, rfl, rfl⟩
  | changed uri edits version now =>
    simp only [touches, step, Store.contains, Table.contains_eq_isSome, change, Store.change,
      Store.changeBy, Store.get?]
    cases hd : s.store.documents.get? (Uri.canonical uri) with
    | none => exact .aside (.refl s)
    | some d =>
      have hu : d.uri = Uri.canonical uri := hk _ d hd
      refine .put (d.edit .silent edits version).1 ?_ ⟨rfl, rfl, rfl, rfl⟩
      show Uri.canonical d.uri = d.uri
      rw [hu, Uri.canonical_canonical]
  | closed disk uri =>
    simp only [touches, step, closeDocument]
    have hu := Uri.canonical_canonical uri
    -- the books kept for the editor change first, then the document
    let s₁ : Session := { s with
      editorOpen := s.editorOpen.erase (Uri.canonical uri)
      debounce := s.debounce.cancel (Uri.canonical uri) }
    have hc : s.SameCore s₁ := ⟨rfl, rfl, rfl, rfl⟩
    cases Uri.toPath? (Uri.canonical uri) with
    | none => exact .of_sameCore hc (becomes_remove s₁ _)
    | some path =>
      simp only
      split
      · exact .of_sameCore hc (becomes_load hu)
      · exact .of_sameCore hc (becomes_remove s₁ _)
  | file disk path event =>
    have hu := Uri.canonical_ofPath path
    simp only [touches, step, fileEvent]
    by_cases hs : (!path.isScript || s.isEditorOpen (Uri.ofPath path)) = true
    · have hf : (path.isScript && !s.isEditorOpen (Uri.ofPath path)) = false := by
        rw [← Bool.not_eq_true', Bool.not_and, Bool.not_not]
        exact hs
      rw [if_pos hs, hf, Bool.false_and]
      exact .aside (.refl s)
    · have ht : (path.isScript && !s.isEditorOpen (Uri.ofPath path)) = true := by
        rw [Bool.not_eq_true, ← Bool.not_eq_true', Bool.not_or, Bool.not_not] at hs
        exact hs
      rw [if_neg hs, ht, Bool.true_and]
      cases event with
      | created => exact becomes_load hu
      | changed => exact becomes_load hu
      | deleted => exact becomes_remove s _
  | rootAdded root => exact absurd rfl (he root)
  | rootsQueued disk => exact .aside ⟨rfl, rfl, rfl, rfl⟩
  | pathsQueued disk paths => exact .aside ⟨rfl, rfl, rfl, rfl⟩
  | batchRead disk =>
    let s₁ : Session := { s with queue := s.queue.nextBatch.2 }
    have hc : s.SameCore s₁ := ⟨rfl, rfl, rfl, rfl⟩
    exact .of_sameCore hc (becomes_indexFiles disk s.queue.nextBatch.1 (s₁, 0)).2
  | published now => exact .aside ⟨rfl, rfl, rfl, rfl⟩

/-! ### Invariants of runs -/

/-- The knowledge is what the stored documents say, and its imports are resolved below the present
roots. -/
def UpToDate (s : Session) : Prop := s.knowledge.Current s.view

/-- The documents are stored under their canonical URIs, the knowledge is what they say, with the
imports resolved below some roots, and no root stands in the list twice. -/
structure Sound (s : Session) : Prop where
  keyed : s.store.Keyed
  canonical : ∀ uri d, s.store.get? uri = some d → Uri.canonical d.uri = d.uri
  current : ∃ roots, s.knowledge.Current ⟨s.store, roots⟩
  roots : s.workspaceRoots.Pairwise fun a b => b.same a = false

theorem sound_start (config : Config) : (start config).Sound where
  keyed := Store.keyed_empty
  canonical _ _ h := by cases h
  current := ⟨[], current_empty []⟩
  roots := .nil

theorem knowledge_put (s : Session) (d : Document) :
    (s.put d).knowledge = s.knowledge.learn ⟨s.store.put d, s.roots⟩ d := rfl

theorem store_remove {uri : String} (h : s.store.contains uri = true) :
    (s.remove uri).store = s.store.close uri := by
  rw [remove, h]
  rfl

theorem knowledge_remove {uri : String} (h : s.store.contains uri = true) :
    (s.remove uri).knowledge = s.knowledge.unlearn ⟨s.store.close uri, s.roots⟩ uri := by
  rw [remove, h]
  rfl

theorem SameCore.roots (h : s.SameCore s') : s'.roots = s.roots := by
  rw [Session.roots, Session.roots, h.config, h.workspaceRoots]

theorem SameCore.upToDate (h : s.SameCore s') (hs : s.UpToDate) : s'.UpToDate := by
  rw [UpToDate, view, h.knowledge, h.store, h.roots]
  exact hs

/-- Putting and removing documents leaves the roots alone. -/
theorem Becomes.roots {b : Bool} (h : s.Becomes b s') :
    s'.config = s.config ∧ s'.workspaceRoots = s.workspaceRoots := by
  induction h with
  | aside h => exact ⟨h.config, h.workspaceRoots⟩
  | put d _ h => exact ⟨h.config, h.workspaceRoots⟩
  | @remove s s' uri hc h =>
    rw [h.config, h.workspaceRoots, Session.remove, hc]
    exact ⟨rfl, rfl⟩
  | trans _ _ ih ih' => exact ⟨ih'.1.trans ih.1, ih'.2.trans ih.2⟩

theorem Sound.upToDate_put (hs : s.Sound) (d : Document) : (s.put d).UpToDate := by
  obtain ⟨roots, hc⟩ := hs.current
  rw [UpToDate, knowledge_put]
  exact hc.learn d

theorem Sound.upToDate_remove (hs : s.Sound) {uri : String} (h : s.store.contains uri = true) :
    (s.remove uri).UpToDate := by
  obtain ⟨roots, hc⟩ := hs.current
  have hr : (s.remove uri).roots = s.roots := by rw [remove, h]; rfl
  rw [UpToDate, view, store_remove h, knowledge_remove h, hr]
  exact hc.unlearn uri

theorem SameCore.sound (h : s.SameCore s') (hs : s.Sound) : s'.Sound where
  keyed := by
    rw [h.store]
    exact hs.keyed
  canonical := by
    rw [h.store]
    exact hs.canonical
  current := by
    rw [h.store, h.knowledge]
    exact hs.current
  roots := by
    rw [h.workspaceRoots]
    exact hs.roots

theorem Sound.put (hs : s.Sound) {d : Document} (hd : Uri.canonical d.uri = d.uri) :
    (s.put d).Sound where
  keyed := hs.keyed.put d
  canonical uri e he := by
    have he' : (s.store.documents.insert d.uri d).get? uri = some e := he
    rw [Table.get?_insert] at he'
    split at he'
    · cases he'
      exact hd
    · exact hs.canonical uri e he'
  current := ⟨_, hs.upToDate_put d⟩
  roots := hs.roots

theorem Sound.remove (hs : s.Sound) {uri : String} (h : s.store.contains uri = true) :
    (s.remove uri).Sound where
  keyed := by
    rw [store_remove h]
    exact hs.keyed.close uri
  canonical uri' e he := by
    rw [store_remove h] at he
    have he' : (s.store.documents.erase uri).get? uri' = some e := he
    rw [Table.get?_erase] at he'
    split at he'
    · cases he'
    · exact hs.canonical uri' e he'
  current := ⟨_, hs.upToDate_remove h⟩
  roots := by
    rw [Session.remove, h]
    exact hs.roots

theorem Becomes.sound {b : Bool} (h : s.Becomes b s') (hs : s.Sound) : s'.Sound := by
  induction h with
  | aside h => exact h.sound hs
  | put d hd h => exact h.sound (hs.put hd)
  | remove uri hc h => exact h.sound (hs.remove hc)
  | trans _ _ ih ih' => exact ih' (ih hs)

/-- One document that is put or removed is enough to bring everything up to date. -/
theorem Becomes.upToDate {b : Bool} (h : s.Becomes b s') (hs : s.Sound)
    (hb : b = true ∨ s.UpToDate) : s'.UpToDate := by
  induction h with
  | aside h => exact h.upToDate (hb.resolve_left Bool.false_ne_true)
  | put d _ h => exact h.upToDate (hs.upToDate_put d)
  | remove uri hc h => exact h.upToDate (hs.upToDate_remove hc)
  | @trans s s' s'' b c h _ ih ih' =>
    refine ih' (h.sound hs) ?_
    cases c with
    | true => exact .inl rfl
    | false => exact .inr (ih hs (by rwa [Bool.or_false] at hb))

theorem sound_step (hs : s.Sound) (e : Event) : (s.step e).Sound := by
  by_cases he : ∃ root, e = .rootAdded root
  · obtain ⟨root, rfl⟩ := he
    show (s.addRoot root).Sound
    unfold addRoot
    split
    · exact hs
    · rename_i hr
      refine ⟨hs.keyed, hs.canonical, hs.current, ?_⟩
      refine List.pairwise_append.2 ⟨hs.roots, List.pairwise_singleton .., fun a ha b hb => ?_⟩
      rw [List.mem_singleton.1 hb, ← Bool.not_eq_true]
      exact fun h => hr (List.any_eq_true.2 ⟨a, ha, h⟩)
  · exact (becomes_step hs.keyed fun root h => he ⟨root, h⟩).sound hs

theorem config_step (hs : s.Sound) (e : Event) : (s.step e).config = s.config := by
  by_cases he : ∃ root, e = .rootAdded root
  · obtain ⟨root, rfl⟩ := he
    show (s.addRoot root).config = s.config
    unfold addRoot
    split <;> rfl
  · exact (becomes_step hs.keyed fun root h => he ⟨root, h⟩).roots.1

theorem upToDate_step (hs : s.Sound) {e : Event} (he : ∀ root, e ≠ .rootAdded root)
    (h : s.touches e = true ∨ s.UpToDate) : (s.step e).UpToDate :=
  (becomes_step hs.keyed he).upToDate hs h

theorem run_append (config : Config) (es es' : List Event) :
    run config (es ++ es') = es'.foldl step (run config es) := List.foldl_append ..

theorem sound_foldl (hs : s.Sound) (es : List Event) : (es.foldl step s).Sound := by
  induction es generalizing s with
  | nil => exact hs
  | cons e es ih => exact ih (sound_step hs e)

/-- **Soundness.**  After every run, the knowledge is what the stored documents say. -/
theorem sound_run (config : Config) (es : List Event) : (run config es).Sound :=
  sound_foldl (sound_start config) es

theorem config_foldl (hs : s.Sound) (es : List Event) : (es.foldl step s).config = s.config := by
  induction es generalizing s with
  | nil => rfl
  | cons e es ih => exact (ih (sound_step hs e)).trans (config_step hs e)

theorem config_run (config : Config) (es : List Event) : (run config es).config = config :=
  config_foldl (sound_start config) es

theorem upToDate_foldl (hs : s.Sound) (h : s.UpToDate) {es : List Event}
    (hr : ∀ root, .rootAdded root ∉ es) : (es.foldl step s).UpToDate := by
  induction es generalizing s with
  | nil => exact h
  | cons e es ih =>
    have he : ∀ root, e ≠ .rootAdded root := fun root he => hr root (he ▸ List.mem_cons_self)
    exact ih (sound_step hs e) (upToDate_step hs he (.inr h)) fun root hm =>
      hr root (List.mem_cons_of_mem e hm)

/-- After a settled run, the imports are resolved below the present roots, too. -/
theorem upToDate_run (h : Settled config es) : (run config es).UpToDate := by
  rcases h with h | ⟨before, e, after, rfl, he, ha⟩
  · exact upToDate_foldl (sound_start config) (current_empty _) h
  · have hr : ∀ root, e ≠ .rootAdded root := by
      rintro root rfl
      cases he
    have hs := sound_run config before
    rw [run_append, List.foldl_cons]
    exact upToDate_foldl (sound_step hs e) (upToDate_step hs hr (.inl he)) ha

/-- A session that has opened one document has no other. -/
theorem get?_run_opened_iff {config : Config} {text : Text} {version : Int} {now : Nat}
    {uri uri' : String} {d : Document} (h : Uri.canonical uri = uri) :
    (run config [.opened uri text version now]).store.get? uri' = some d ↔
      uri' = uri ∧ d = .ofText uri text version := by
  have hget : (run config [.opened uri text version now]).store.get? uri' =
      if uri' = Uri.canonical uri then some (.ofText (Uri.canonical uri) text version) else none :=
    Table.get?_insert ..
  rw [hget, h, Option.ite_none_right_eq_some, Option.some.injEq, eq_comm (b := d)]

end Session

end RouteScript
