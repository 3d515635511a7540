import RouteScript.Proofs.EditorOwnership

/-!
# One file under several spellings

A file is named by paths and by URIs, and its document is stored under a key that keeps the spelling
of the path: neither an empty name nor a dot is taken out.  So the documents of local files are those
of different spellings, not of different files.  Only where no name says nothing does a file have one
spelling.

* `Path.same_iff_of_isPlain`: plain paths of the same file are spelled alike.
* `ofPath_inj`, `canonical_of_locates`: which paths and URIs have the same key.
* `eq_ofPath_of_locates`: the key of a stored document can be read off its path.
* `pathSpelling_run`: these together, and `not_same_document_of_dottedRoot`, where they end.
-/

namespace RouteScript

/-! ### Paths -/

namespace Path

/-- No name of the path is empty or a dot. -/
def IsPlain (p : Path) : Prop := ∀ name ∈ p.names, isVoid name = false

instance (p : Path) : Decidable p.IsPlain :=
  inferInstanceAs (Decidable (∀ name ∈ p.names, isVoid name = false))

variable {p q : Path}

/-- The component that a name stands for, unless it says nothing. -/
def component (name : Text) : Component := if name == ['.', '.'] then .up else .name name

theorem component_injective : Function.Injective component := by
  intro a b h
  unfold component at h
  split at h <;> split at h <;> simp_all

theorem filterMap_inner? {names : List Text} (h : ∀ name ∈ names, isVoid name = false) :
    names.filterMap inner? = names.map component := by
  rw [← List.filterMap_eq_map]
  refine List.filterMap_congr fun name hname => ?_
  rw [inner?, h name hname, if_neg Bool.false_ne_true, Function.comp_apply, component, apply_ite some]

theorem components_of_isPlain (h : p.IsPlain) :
    p.components = (if p.isAbsolute then [.root] else []) ++ p.names.map component := by
  rw [components, ← filterMap_inner? h]
  split
  · rfl
  · split
    next rest hnames =>
      exact absurd (h ['.'] (hnames ▸ List.mem_cons_self)) (by decide)
    next => rfl

/-- The text of a path can be read off its names. -/
theorem text_eq (p : Path) :
    p.text = (if p.isAbsolute then ['/'] else []) ++ Text.joinWith '/' p.names := by
  by_cases h : p.isAbsolute
  · obtain ⟨rest, hrest⟩ : ∃ rest, p.text = '/' :: rest := by
      simpa [isAbsolute, List.head?_eq_some_iff] using h
    have hnames : p.names = Text.splitOn '/' rest := by
      rw [names, if_pos h, hrest, Text.splitOn, if_pos rfl, List.drop_one, List.tail_cons]
    rw [if_pos h, hnames, Text.joinWith_splitOn, hrest, List.singleton_append]
  · rw [if_neg h, names, if_neg h, Text.joinWith_splitOn, List.nil_append]

/-- Plain paths of the same file are spelled alike. -/
theorem same_iff_of_isPlain (hp : p.IsPlain) (hq : q.IsPlain) : p.same q = true ↔ p = q := by
  refine ⟨fun h => ?_, fun h => by rw [same, beq_iff_eq, h]⟩
  rw [same, beq_iff_eq, components_of_isPlain hp, components_of_isPlain hq] at h
  have hroot : ∀ names : List Text, Component.root ∉ names.map component := fun names hin => by
    obtain ⟨name, -, hname⟩ := List.mem_map.1 hin
    unfold component at hname
    split at hname <;> cases hname
  have hnames : p.isAbsolute = q.isAbsolute ∧ p.names = q.names := by
    cases hpa : p.isAbsolute <;> cases hqa : q.isAbsolute <;>
      simp only [hpa, hqa, if_true, Bool.false_eq_true, if_false, List.nil_append,
        List.singleton_append] at h
    · exact ⟨rfl, component_injective.list_map h⟩
    · exact absurd (h ▸ List.mem_cons_self) (hroot p.names)
    · exact absurd (h ▸ List.mem_cons_self) (hroot q.names)
    · exact ⟨rfl, component_injective.list_map (List.cons.inj h).2⟩
  have htext : p.text = q.text := by rw [text_eq p, text_eq q, hnames.1, hnames.2]
  cases p
  cases q
  exact congrArg mk htext

end Path

/-! ### Keys -/

namespace Uri

variable {u v : String} {p q : Path}

/-- The URI is that of a local file with the given path. -/
def Locates (uri : String) (p : Path) : Prop :=
  (∃ rest, uri.toList = fileScheme ++ '/' :: rest) ∧ toPath? uri = some p

theorem canonical_of_locates (h : Locates u p) : canonical u = ofPath p := by
  obtain ⟨⟨rest, hrest⟩, hpath⟩ := h
  have hstrip : Text.stripFront? fileScheme u.toList = some ('/' :: rest) :=
    Text.stripFront?_eq_some_iff.2 hrest
  rw [toPath?, hstrip] at hpath
  obtain rfl := Option.some.inj hpath
  rw [canonical, hstrip]
  rfl

theorem toPath?_ofPath (p : Path) : toPath? (ofPath p) = some ⟨spelled p⟩ := by
  rw [toPath?, stripFront?_ofPath, Option.map_some, unescape_escape]

/-- The key of a file tells how its path is spelled, and nothing else. -/
theorem ofPath_inj : ofPath p = ofPath q ↔ spelled p = spelled q := by
  refine ⟨fun h => ?_, fun h => by rw [ofPath_eq, ofPath_eq, h]⟩
  have := congrArg toPath? h
  rw [toPath?_ofPath, toPath?_ofPath] at this
  exact congrArg Path.text (Option.some.inj this)

theorem eq_ofPath_of_locates (hc : canonical u = u) (h : Locates u p) : u = ofPath p :=
  hc.symm.trans (canonical_of_locates h)

end Uri

/-! ### Sessions -/

namespace Session

variable [Python.Recovery] {config : Config} {es : List Event}

theorem canonical_of_contains {uri : String} (h : (run config es).store.contains uri = true) :
    Uri.canonical uri = uri := by
  obtain ⟨d, hd⟩ := Option.isSome_iff_exists.1 h
  obtain rfl := (sound_run config es).keyed uri d hd
  exact (sound_run config es).canonical _ d hd

theorem contains_step_opened (s : Session) (u : String) (text : Text) (version : Int) (now : Nat)
    (uri : String) : (s.step (.opened u text version now)).store.contains uri =
      (decide (uri = Uri.canonical u) || s.store.contains uri) :=
  Table.contains_insert ..

/-- **One document for each spelling.**  Paths and URIs of local files have the same key just if they
spell the path alike, once escapes are read and backslashes are slashes.  So URIs that the editor opens
are one document just if they do, whatever file they are of.  After every run, the documents of local
files are the same just if their paths are, to the letter; where no name is empty or a dot, they are
the same just if they are of the same file. -/
theorem pathSpelling_run (config : Config) (es : List Event) :
    (∀ p q, Uri.ofPath p = Uri.ofPath q ↔ Uri.spelled p = Uri.spelled q) ∧
    (∀ u v p q, Uri.Locates u p → Uri.Locates v q →
      (Uri.canonical u = Uri.canonical v ↔ Uri.spelled p = Uri.spelled q)) ∧
    (∀ u v text text' version version' now now' uri, uri = Uri.canonical u ∨ uri = Uri.canonical v →
      (run config (es ++ [.opened u text version now, .opened v text' version' now'])).store.contains
        uri = true) ∧
    ∀ u v p q, (run config es).store.contains u = true → (run config es).store.contains v = true →
      Uri.Locates u p → Uri.Locates v q →
      (u = v ↔ p = q) ∧ (p.IsPlain → q.IsPlain → (u = v ↔ p.same q = true)) := by
  refine ⟨fun p q => Uri.ofPath_inj, fun u v p q hu hv => ?_, ?_, fun u v p q hcu hcv hu hv => ?_⟩
  · rw [Uri.canonical_of_locates hu, Uri.canonical_of_locates hv, Uri.ofPath_inj]
  · intro u v text text' version version' now now' uri h
    rw [run_append, List.foldl_cons, List.foldl_cons, List.foldl_nil, contains_step_opened,
      contains_step_opened]
    rcases h with h | h <;> simp [h]
  · have hpaths : u = v ↔ p = q := by
      constructor
      · rintro rfl
        exact Option.some.inj (hu.2.symm.trans hv.2)
      · rintro rfl
        rw [Uri.eq_ofPath_of_locates (canonical_of_contains hcu) hu,
          Uri.eq_ofPath_of_locates (canonical_of_contains hcv) hv]
    exact ⟨hpaths, fun hp hq => hpaths.trans (Path.same_iff_of_isPlain hp hq).symm⟩

end Session

namespace Session

/-- The editor opens a script under a URI with an escape, and another script beside it. -/
def escapedSpelling : List Event :=
  [.opened "file:///w/%61.py" ['x'] 1 0, .opened "file:///w/b.py" ['y'] 1 0]

/-- The plain paths of the two documents are not those of the same file. -/
theorem pathSpelling_escapedSpelling :
    (run .default escapedSpelling).store.contains "file:///w/a.py" = true ∧
      (run .default escapedSpelling).store.contains "file:///w/b.py" = true ∧
      ¬ Path.same ⟨"/w/a.py".toList⟩ ⟨"/w/b.py".toList⟩ = true := by
  have ha : Uri.Locates "file:///w/a.py" ⟨"/w/a.py".toList⟩ :=
    ⟨⟨"w/a.py".toList, by decide +kernel⟩, by decide +kernel⟩
  have hb : Uri.Locates "file:///w/b.py" ⟨"/w/b.py".toList⟩ :=
    ⟨⟨"w/b.py".toList, by decide +kernel⟩, by decide +kernel⟩
  have hca : (run .default escapedSpelling).store.contains "file:///w/a.py" = true := by
    decide +kernel
  have hcb : (run .default escapedSpelling).store.contains "file:///w/b.py" = true := by
    decide +kernel
  obtain ⟨-, -, -, hstored⟩ := pathSpelling_run .default escapedSpelling
  have hplain := (hstored _ _ _ _ hca hcb ha hb).2 (by decide +kernel) (by decide +kernel)
  exact ⟨hca, hcb, fun hsame => absurd (hplain.2 hsame) (by decide)⟩

/-- A disk with a script in a directory. -/
def scriptDisk : Disk :=
  ⟨[(["w".toList], .directory), (["w".toList, "a.py".toList], .file [0x78])], []⟩

/-- The editor opens the script, and then the directory is indexed under a path that ends in a dot. -/
def dottedRoot : List Event :=
  [.opened "file:///w/a.py" ['x'] 1 0, .rootAdded ⟨"/w/.".toList⟩, .rootsQueued scriptDisk,
    .batchRead scriptDisk]

/-- Two paths of the same file can have two keys, and the script has two documents then. -/
theorem not_same_document_of_dottedRoot :
    (¬ ∀ p q : Path, p.same q = true → Uri.ofPath p = Uri.ofPath q) ∧
    ¬ ∀ es u v p q, (run .default es).store.contains u = true →
      (run .default es).store.contains v = true → Uri.Locates u p → Uri.Locates v q →
      p.same q = true → u = v := by
  have hsame : Path.same ⟨"/w/a.py".toList⟩ ⟨"/w/./a.py".toList⟩ = true := by decide +kernel
  refine ⟨fun h => absurd (h _ _ hsame) (by decide +kernel), fun h => ?_⟩
  have hu : Uri.Locates "file:///w/a.py" ⟨"/w/a.py".toList⟩ :=
    ⟨⟨"w/a.py".toList, by decide +kernel⟩, by decide +kernel⟩
  have hv : Uri.Locates "file:///w/./a.py" ⟨"/w/./a.py".toList⟩ :=
    ⟨⟨"w/./a.py".toList, by decide +kernel⟩, by decide +kernel⟩
  exact absurd (h dottedRoot _ _ _ _ (by decide +kernel) (by decide +kernel) hu hv hsame) (by decide)

end Session

end RouteScript
