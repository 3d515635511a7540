import Mathlib.Data.List.Basic
import RouteScript.Proofs.EntryNames

/-!
# The scripts of a workspace

The search for scripts goes from directory to directory and leaves out those with an excluded name
when it comes upon them.  What it finds can be told from the whole way to a file: the names that
lead from the root down to it, of which all but the last are names of directories in between.

* `Path.compareComponents_eq`, `Path.pairwise_mergeSort`: paths are sorted as lists of components.
* `Disk.Named`, `Named.write`, `Named.remove`: the names on a disk are names of entries.
* `LeadsToFile`, `leadsToFile_cons`: the way to a file, and its first step.
* `mem_search_iff`, `pairwise_search`: a search finds the files that such ways lead to, each once.
* `scripts_exact`: the scripts at and below a root, in order.
-/

namespace RouteScript

/-! ### The order of paths -/

namespace Component

/-- What names are compared by. -/
def spelling : Component → String
  | name text => String.ofList text
  | _ => ""

theorem compare_eq : Component.compare = compareLex (compareOn rank) (compareOn spelling) := by
  funext a b
  cases a <;> cases b <;> rfl

instance : Std.TransCmp Component.compare := by
  rw [compare_eq]
  infer_instance

instance : Std.LawfulEqCmp Component.compare where
  eq_of_compare {a b} h := by
    cases a <;> cases b <;> simp_all [Component.compare, rank, String.ofList_inj]

end Component

namespace Path

theorem compareComponents_eq : compareComponents = List.compareLex Component.compare := by
  funext a b
  induction a generalizing b with
  | nil => cases b <;> rfl
  | cons x a ih =>
    cases b with
    | nil => rfl
    | cons y b =>
      rw [compareComponents, ih, List.compareLex_cons_cons]

theorem le_iff {p q : Path} : p.le q = true ↔
    (List.compareLex Component.compare p.components q.components).isLE = true := by
  rw [le, compareComponents_eq]
  cases List.compareLex Component.compare p.components q.components <;> decide

theorem pairwise_mergeSort (paths : List Path) :
    (paths.mergeSort le).Pairwise fun p q => p.le q = true := by
  refine List.pairwise_mergeSort (fun p q r hpq hqr => ?_) (fun p q => ?_) paths
  · rw [le_iff] at *
    exact Std.TransCmp.isLE_trans hpq hqr
  · have hswap : List.compareLex Component.compare q.components p.components =
        (List.compareLex Component.compare p.components q.components).swap :=
      Std.OrientedCmp.eq_swap
    rw [Bool.or_eq_true, le_iff, le_iff, hswap]
    cases List.compareLex Component.compare p.components q.components <;> decide

/-- Of two paths with different components, the one that is no later is earlier. -/
theorem compareComponents_of_le {p q : Path} (h : p.le q = true)
    (hne : p.components ≠ q.components) :
    compareComponents p.components q.components = .lt := by
  rw [le_iff] at h
  rw [compareComponents_eq]
  cases hc : List.compareLex Component.compare p.components q.components with
  | lt => rfl
  | eq => exact absurd (Std.LawfulEqCmp.eq_of_compare hc) hne
  | gt =>
    rw [hc] at h
    cases h

end Path

/-! ### Names on a disk -/

namespace Text

theorem notMem_of_mem_splitOn {sep : Char} {t part : Text} (h : part ∈ splitOn sep t) :
    sep ∉ part := by
  induction t generalizing part with
  | nil =>
    rw [List.mem_singleton.1 h]
    exact List.not_mem_nil
  | cons c t ih =>
    rw [splitOn] at h
    split at h
    · rcases List.mem_cons.1 h with rfl | h
      · exact List.not_mem_nil
      · exact ih h
    · rename_i hc
      obtain ⟨first, parts, hparts⟩ := List.exists_cons_of_ne_nil (splitOn_ne_nil sep t)
      simp only [hparts] at h ih
      rcases List.mem_cons.1 h with rfl | h
      · exact List.not_mem_cons_of_ne_of_not_mem (Ne.symm hc) (ih List.mem_cons_self)
      · exact ih (List.mem_cons_of_mem first h)

end Text

theorem Path.isEntryName_of_inner? {name m : Text} (h : inner? name = some (.name m))
    (hname : '/' ∉ name) : IsEntryName m := by
  unfold inner? at h
  split at h
  · cases h
  · split at h
    · cases h
    · cases h
      simp_all [isVoid, isEntryName_iff]

theorem Path.slash_notMem_names {p : Path} {name : Text} (h : name ∈ p.names) : '/' ∉ name := by
  unfold names at h
  split at h
  · exact Text.notMem_of_mem_splitOn (List.mem_of_mem_drop h)
  · exact Text.notMem_of_mem_splitOn h

namespace Disk

variable {d : Disk} {place : Place} {name : Text}

/-- The names that lead to the entries of the disk and to its current directory can be names of
entries. -/
structure Named (d : Disk) : Prop where
  entries : ∀ e ∈ d.entries, ∀ name ∈ e.1, Path.IsEntryName name
  current : ∀ name ∈ d.current, Path.IsEntryName name

theorem named_empty : empty.Named := ⟨by simp [empty], by simp [empty]⟩

theorem named_enter (h : ∀ n ∈ place, Path.IsEntryName n) (hname : '/' ∉ name) :
    ∀ n ∈ enter place name, Path.IsEntryName n := by
  unfold enter
  split
  · rename_i m hm
    have hentry : Path.IsEntryName m := Path.isEntryName_of_inner? hm hname
    exact List.forall_mem_append.2 ⟨h, List.forall_mem_singleton.2 hentry⟩
  · exact fun n hn => h n (List.dropLast_subset _ hn)
  · exact h

theorem named_foldl_enter {names : List Text} (h : ∀ n ∈ place, Path.IsEntryName n)
    (hnames : ∀ name ∈ names, '/' ∉ name) :
    ∀ n ∈ names.foldl enter place, Path.IsEntryName n := by
  induction names generalizing place with
  | nil => exact h
  | cons name names ih =>
    obtain ⟨hname, hnames⟩ := List.forall_mem_cons.1 hnames
    exact ih (named_enter h hname) hnames

theorem Named.placeOf (hd : d.Named) (p : Path) : ∀ n ∈ d.placeOf p, Path.IsEntryName n := by
  refine named_foldl_enter ?_ fun _ => Path.slash_notMem_names
  unfold origin
  split
  · exact List.forall_mem_nil _
  · exact hd.current

theorem Named.put (hd : d.Named) (h : ∀ n ∈ place, Path.IsEntryName n) (entry : Entry) :
    (d.put place entry).Named :=
  ⟨List.forall_mem_cons.2 ⟨h, fun e he => hd.entries e (List.mem_of_mem_filter he)⟩, hd.current⟩

theorem Named.foldl_addDirectory (hd : d.Named) {places : List Place}
    (h : ∀ place ∈ places, ∀ n ∈ place, Path.IsEntryName n) :
    (places.foldl addDirectory d).Named := by
  induction places generalizing d with
  | nil => exact hd
  | cons place places ih =>
    obtain ⟨hplace, hplaces⟩ := List.forall_mem_cons.1 h
    refine ih ?_ hplaces
    unfold addDirectory
    split
    · exact hd
    · exact hd.put hplace .directory

theorem Named.write (hd : d.Named) (p : Path) (entry : Entry) : (d.write p entry).Named := by
  have hplace := hd.placeOf p
  refine (hd.foldl_addDirectory fun place h => ?_).put hplace entry
  obtain ⟨i, -, rfl⟩ := List.mem_map.1 h
  exact fun n hn => hplace n (List.mem_of_mem_take hn)

theorem Named.remove (hd : d.Named) (p : Path) : (d.remove p).Named :=
  ⟨fun e he => hd.entries e (List.mem_of_mem_filter he), hd.current⟩

/-! ### Directories -/

theorem entry?_append (d : Disk) (place : Place) (name : Text) :
    d.entry? (place ++ [name]) = d.entries.lookup (place ++ [name]) := by
  rw [ entry?, if_neg (by simp)]

/-- The names in a directory are those at which an entry stands. -/
theorem mem_namesIn_iff :
    name ∈ d.namesIn place ↔ (d.entry? (place ++ [name])).isSome = true := by
  have hcut : ∀ q : Place, (if q.dropLast = place then q.getLast? else none) = some name ↔
      place ++ [name] = q := by
    intro q
    rcases q.eq_nil_or_concat with rfl | ⟨before, last, rfl⟩
    · simp
    · rw [List.concat_eq_append, List.dropLast_concat, List.getLast?_concat,
        List.append_singleton_inj, eq_comm (a := place), eq_comm (a := name)]
      split <;> simp_all
  simp only [namesIn, List.mem_eraseDups, List.mem_filterMap, beq_iff_eq, hcut, entry?_append,
    List.lookup_isSome_iff]

theorem Named.isEntryName (hd : d.Named) (h : name ∈ d.namesIn place) : Path.IsEntryName name := by
  rw [mem_namesIn_iff, entry?_append, List.lookup_isSome_iff] at h
  obtain ⟨e, he, heq⟩ := h
  exact hd.entries e he name (beq_iff_eq.1 heq ▸ by simp)

theorem nodup_eraseDups {α : Type} [BEq α] [LawfulBEq α] (l : List α) : l.eraseDups.Nodup := by
  generalize hn : l.length = n
  induction n using Nat.strongRecOn generalizing l with
  | ind n ih =>
    cases l with
    | nil => exact List.nodup_nil
    | cons a l =>
      have hlen := List.length_filter_le (fun b => !b == a) l
      rw [List.eraseDups_cons, List.nodup_cons]
      refine ⟨?_, ih _ (by rw [← hn, List.length_cons]; omega) _ rfl⟩
      simp

/-- No entry is deeper than the disk. -/
theorem length_le_depth {q : Place} {entry : Entry} (h : (q, entry) ∈ d.entries) :
    q.length ≤ d.depth := by
  unfold depth
  generalize d.entries = entries at h
  induction entries with
  | nil => cases h
  | cons e entries ih =>
    rw [List.map_cons, List.foldr_cons]
    rcases List.mem_cons.1 h with rfl | h
    · exact Nat.le_max_left ..
    · exact Nat.le_trans (ih h) (Nat.le_max_right ..)

/-! ### The way to a file -/

/-- The names lead from the place down to a file, and none of them but the last, which is that of
the file, is an excluded name. -/
structure LeadsToFile (d : Disk) (excluded : List String) (place : Place) (names : List Text) :
    Prop where
  named : ∀ name ∈ names, Path.IsEntryName name
  file : ∃ q content, d.walk place names = .ok q ∧ d.entry? q = some (.file content)
  between : ∀ name ∈ names.dropLast, String.ofList name ∉ excluded

variable {excluded : List String} {names : List Text}

theorem leadsToFile_nil : d.LeadsToFile excluded place [] ↔
    ∃ content, d.entry? place = some (.file content) := by
  constructor
  · rintro ⟨-, ⟨q, content, hwalk, hq⟩, -⟩
    obtain ⟨rfl, -⟩ := walk_nil.1 hwalk
    exact ⟨content, hq⟩
  · rintro ⟨content, hplace⟩
    refine ⟨List.forall_mem_nil _, ⟨place, content, ?_, hplace⟩, List.forall_mem_nil _⟩
    exact walk_nil.2 ⟨rfl, by simp [hplace]⟩

/-- There are names to go from a directory, and none to go from a file. -/
theorem LeadsToFile.ne_nil_iff (h : d.LeadsToFile excluded place names) :
    names ≠ [] ↔ d.entry? place = some .directory := by
  obtain ⟨q, content, hwalk, hq⟩ := h.file
  cases names with
  | nil =>
    obtain ⟨rfl, -⟩ := walk_nil.1 hwalk
    simp [hq]
  | cons name names => simp [(walk_cons.1 hwalk).1]

theorem isExcluded_eq_false_iff : d.isExcluded excluded place name = false ↔
    (d.entry? (place ++ [name]) = some .directory → String.ofList name ∉ excluded) := by
  simp [isExcluded]

/-- The first step goes into a directory, to an entry that is not passed over. -/
theorem leadsToFile_cons : d.LeadsToFile excluded place (name :: names) ↔
    d.entry? place = some .directory ∧ Path.IsEntryName name ∧
      d.isExcluded excluded place name = false ∧
      d.LeadsToFile excluded (place ++ [name]) names := by
  have hbetween : (∀ n ∈ (name :: names).dropLast, String.ofList n ∉ excluded) ↔
      (names ≠ [] → String.ofList name ∉ excluded) ∧
        ∀ n ∈ names.dropLast, String.ofList n ∉ excluded := by
    cases names <;> simp
  constructor
  · rintro ⟨hnamed, ⟨q, content, hwalk, hq⟩, hexcluded⟩
    obtain ⟨hname, hnames⟩ := List.forall_mem_cons.1 hnamed
    obtain ⟨hfirst, hrest⟩ := hbetween.1 hexcluded
    obtain ⟨hplace, hwalk⟩ := walk_cons.1 hwalk
    rw [enter_eq place hname] at hwalk
    have hleads : d.LeadsToFile excluded (place ++ [name]) names :=
      ⟨hnames, ⟨q, content, hwalk, hq⟩, hrest⟩
    exact ⟨hplace, hname, isExcluded_eq_false_iff.2 fun h => hfirst (hleads.ne_nil_iff.2 h), hleads⟩
  · rintro ⟨hplace, hname, hpassed, hleads⟩
    obtain ⟨q, content, hwalk, hq⟩ := hleads.file
    rw [← enter_eq place hname] at hwalk
    refine ⟨List.forall_mem_cons.2 ⟨hname, hleads.named⟩,
      ⟨q, content, walk_cons.2 ⟨hplace, hwalk⟩, hq⟩, hbetween.2 ⟨fun h => ?_, hleads.between⟩⟩
    exact isExcluded_eq_false_iff.1 hpassed (hleads.ne_nil_iff.1 h)

theorem walk_eq {q : Place} (h : ∀ name ∈ names, Path.IsEntryName name)
    (hwalk : d.walk place names = .ok q) : q = place ++ names := by
  induction names generalizing place with
  | nil =>
    rw [List.append_nil]
    exact (walk_nil.1 hwalk).1
  | cons name names ih =>
    obtain ⟨hname, hnames⟩ := List.forall_mem_cons.1 h
    rw [ih hnames (walk_cons.1 hwalk).2, enter_eq place hname, List.append_assoc,
      List.singleton_append]

/-- No way to a file is longer than the disk is deep. -/
theorem LeadsToFile.length_le (h : d.LeadsToFile excluded place names) :
    names.length ≤ d.depth := by
  obtain ⟨q, content, hwalk, hq⟩ := h.file
  rw [ entry?] at hq
  split at hq
  · cases hq
  · obtain ⟨front, back, hsplit, -⟩ := List.lookup_eq_some_iff.1 hq
    have hmem : (q, .file content) ∈ d.entries := by simp [hsplit]
    have hdepth := length_le_depth hmem
    rw [walk_eq h.named hwalk, List.length_append] at hdepth
    omega

/-! ### The search -/

variable {path p : Path} {steps : Nat}

/-- A search finds the files that it can reach in the given number of steps. -/
theorem mem_search_iff (hd : d.Named) : p ∈ d.search excluded steps place path ↔
    ∃ names, d.LeadsToFile excluded place names ∧ names.length < steps ∧
      p = names.foldl (fun p name => p.join ⟨name⟩) path := by
  induction steps generalizing place path with
  | zero => simp [search]
  | succ steps ih =>
    rw [search]
    constructor
    · intro h
      split at h
      · cases h
      · rename_i content hplace
        exact ⟨[], leadsToFile_nil.2 ⟨content, hplace⟩, Nat.succ_pos steps, List.mem_singleton.1 h⟩
      · rename_i hplace
        obtain ⟨name, hname, h⟩ := List.mem_flatMap.1 h
        obtain ⟨hin, hpassed⟩ := List.mem_filter.1 hname
        obtain ⟨names, hleads, hlength, rfl⟩ := ih.1 h
        refine ⟨name :: names, leadsToFile_cons.2 ⟨hplace, hd.isEntryName hin, ?_, hleads⟩,
          Nat.succ_lt_succ hlength, rfl⟩
        simpa using hpassed
    · rintro ⟨names, hleads, hlength, rfl⟩
      cases names with
      | nil =>
        obtain ⟨content, hplace⟩ := leadsToFile_nil.1 hleads
        simp [hplace]
      | cons name names =>
        obtain ⟨hplace, -, hpassed, hleads⟩ := leadsToFile_cons.1 hleads
        have hin : name ∈ d.namesIn place := by
          obtain ⟨q, content, hwalk, -⟩ := hleads.file
          exact mem_namesIn_iff.2 (isSome_start_of_walk hwalk)
        simp only [hplace]
        refine List.mem_flatMap.2 ⟨name, List.mem_filter.2 ⟨hin, by simp [hpassed]⟩, ?_⟩
        exact ih.2 ⟨names, hleads, Nat.lt_of_succ_lt_succ hlength, rfl⟩

/-- No two of the files that a search finds have the same components. -/
theorem pairwise_search (hd : d.Named) (hpath : path.text ≠ []) :
    (d.search excluded steps place path).Pairwise fun p q => p.components ≠ q.components := by
  induction steps generalizing place path with
  | zero => exact .nil
  | succ steps ih =>
    rw [search]
    split
    · exact .nil
    · exact List.pairwise_singleton ..
    · have hentry : ∀ name ∈ d.namesIn place, Path.IsEntryName name := fun _ => hd.isEntryName
      -- below a name, the component of that name follows those of the path
      have hbelow : ∀ name ∈ d.namesIn place,
          ∀ p ∈ d.search excluded steps (place ++ [name]) (path.join ⟨name⟩),
            ∃ more, p.components = path.components ++ .name name :: more := by
        intro name hname p hp
        obtain ⟨names, hleads, -, rfl⟩ := (mem_search_iff hd).1 hp
        refine ⟨names.map .name, ?_⟩
        rw [Path.components_foldl_join (path.text_join_ne_nil (hentry name hname)) hleads.named,
          Path.components_join hpath (hentry name hname), List.append_assoc, List.singleton_append]
      have hnodup : ((d.namesIn place).filter fun name => !d.isExcluded excluded place name).Pairwise
          (· ≠ ·) := (nodup_eraseDups _).filter _
      refine List.pairwise_flatMap.2 ⟨fun name hname => ?_, ?_⟩
      · exact ih (path.text_join_ne_nil (hentry name (List.mem_of_mem_filter hname)))
      · refine hnodup.imp_of_mem fun {a b} ha hb hne p hp q hq heq => hne ?_
        obtain ⟨more, hp⟩ := hbelow a (List.mem_of_mem_filter ha) p hp
        obtain ⟨more', hq⟩ := hbelow b (List.mem_of_mem_filter hb) q hq
        rw [hp, hq] at heq
        simpa using (List.cons.inj (List.append_cancel_left heq)).1

/-! ### The scripts -/

variable {root : Path}

theorem mem_scripts_iff (hd : d.Named) : p ∈ d.scripts excluded root ↔
    p.isScript = true ∧ ∃ place names, d.resolve root = .ok place ∧
      d.LeadsToFile excluded place names ∧
      p = names.foldl (fun p name => p.join ⟨name⟩) root := by
  unfold scripts
  cases hroot : d.resolve root with
  | error e => simp
  | ok place =>
    simp only [List.mem_mergeSort, List.mem_filter, mem_search_iff hd, Except.ok.injEq,
      exists_and_left, exists_eq_left']
    rw [and_comm]
    refine and_congr_right fun _ => ⟨?_, ?_⟩
    · rintro ⟨names, hleads, -, hp⟩
      exact ⟨names, hleads, hp⟩
    · rintro ⟨names, hleads, hp⟩
      exact ⟨names, hleads, Nat.lt_succ_of_le hleads.length_le, hp⟩

theorem isFile_iff : d.isFile p = true ↔
    ∃ q content, d.resolve p = .ok q ∧ d.entry? q = some (.file content) := by
  unfold isFile lookup?
  cases hp : d.resolve p with
  | error e => simp
  | ok q =>
    simp only [Except.ok.injEq, exists_and_left, exists_eq_left']
    split <;> simp_all

/-- The path is that of a script at or below a root: names lead from the root down to a file, the
name of the file ends in `.py` behind something else, and no directory strictly between the two has
an excluded name. -/
structure IsScriptBelow (d : Disk) (excluded : List String) (root : Path) (names : List Text)
    (p : Path) : Prop where
  exists_root : ∃ place, d.resolve root = .ok place
  named : ∀ name ∈ names, Path.IsEntryName name
  path : p = names.foldl (fun p name => p.join ⟨name⟩) root
  file : d.isFile p = true
  extension : ∃ stem, stem ≠ [] ∧ p.fileName? = some (stem ++ ".py".toList)
  between : ∀ name ∈ names.dropLast, String.ofList name ∉ excluded

theorem text_ne_nil_of_resolve (h : d.resolve root = .ok place) : root.text ≠ [] := by
  intro hnil
  rw [resolve, if_pos (by simp [hnil])] at h
  cases h

/-- The scripts are in the order of their paths, each once. -/
theorem pairwise_scripts (hd : d.Named) : (d.scripts excluded root).Pairwise
    fun p q => Path.compareComponents p.components q.components = .lt := by
  unfold scripts
  split
  · exact .nil
  · rename_i place hroot
    have hdistinct : (d.search excluded (d.depth + 1) place root).Pairwise
        fun p q => p.components ≠ q.components :=
      pairwise_search hd (text_ne_nil_of_resolve hroot)
    have hperm := List.mergeSort_perm
      ((d.search excluded (d.depth + 1) place root).filter (·.isScript)) Path.le
    have hne := (hperm.pairwise_iff Ne.symm).2 (hdistinct.filter _)
    exact (Path.pairwise_mergeSort _).imp₂ (fun _ _ => Path.compareComponents_of_le) hne

/-- **The scripts of a workspace.**  The scripts of a root are in the order of their paths, each
once.  They are the files at and below the root whose names end in `.py` and that have no directory
with an excluded name strictly between the root and themselves; the root's own name does not matter,
nor does that of a file, and a directory is searched whatever its name ends in. -/
theorem scripts_exact (d : Disk) (hd : d.Named) (extra : List String) (root : Path) :
    (d.scripts (skipped ++ extra) root).Pairwise
      (fun p q => Path.compareComponents p.components q.components = .lt) ∧
    ∀ p, p ∈ d.scripts (skipped ++ extra) root ↔
      ∃ names, d.IsScriptBelow (skipped ++ extra) root names p := by
  refine ⟨pairwise_scripts hd, fun p => ?_⟩
  rw [mem_scripts_iff hd, Path.isScript_iff]
  constructor
  · rintro ⟨hscript, place, names, hroot, hleads, rfl⟩
    obtain ⟨q, content, hwalk, hq⟩ := hleads.file
    refine ⟨names, ⟨place, hroot⟩, hleads.named, rfl, isFile_iff.2 ⟨q, content, ?_, hq⟩, hscript,
      hleads.between⟩
    exact (resolve_foldl_join (text_ne_nil_of_resolve hroot) hleads.named).2 ⟨place, hroot, hwalk⟩
  · rintro ⟨names, ⟨place, hroot⟩, hnamed, rfl, hfile, hscript, hbetween⟩
    obtain ⟨q, content, hpath, hq⟩ := isFile_iff.1 hfile
    obtain ⟨place, hroot, hwalk⟩ :=
      (resolve_foldl_join (text_ne_nil_of_resolve hroot) hnamed).1 hpath
    exact ⟨hscript, place, names, hroot, ⟨hnamed, ⟨q, content, hwalk, hq⟩, hbetween⟩, rfl⟩

/-- A directory with an excluded name that holds a script with an excluded name, a directory named
like a script and a directory to be left out. -/
def targetDisk : Disk :=
  ((empty.write (.ofString "/target/x.py") (.file [])).write (.ofString "/target/d.py/a.py")
    (.file [])).write (.ofString "/target/venv/b.py") (.file [])

theorem scripts_exact_targetDisk :
    targetDisk.Named ∧
    targetDisk.scripts (skipped ++ ["x.py"]) (.ofString "/target") =
      [.ofString "/target/d.py/a.py", .ofString "/target/x.py"] ∧
    (∃ names, targetDisk.IsScriptBelow (skipped ++ ["x.py"]) (.ofString "/target") names
      (.ofString "/target/x.py")) ∧
    ¬ ∃ names, targetDisk.IsScriptBelow (skipped ++ ["x.py"]) (.ofString "/target") names
      (.ofString "/target/venv/b.py") := by
  have hnamed : targetDisk.Named := ((named_empty.write _ _).write _ _).write _ _
  have hscripts : targetDisk.scripts (skipped ++ ["x.py"]) (.ofString "/target") =
      [.ofString "/target/d.py/a.py", .ofString "/target/x.py"] := by
    have hroot : targetDisk.resolve (.ofString "/target") = .ok ["target".toList] := by rfl
    have hsearch : (targetDisk.search (skipped ++ ["x.py"]) (targetDisk.depth + 1)
        ["target".toList] (.ofString "/target")).filter (·.isScript) =
          [.ofString "/target/d.py/a.py", .ofString "/target/x.py"] := by decide +kernel
    simp only [scripts, hroot, hsearch]
    exact List.mergeSort_of_pairwise (by decide +kernel)
  obtain ⟨-, hmem⟩ := scripts_exact targetDisk hnamed ["x.py"] (.ofString "/target")
  refine ⟨hnamed, hscripts, (hmem _).1 ?_, fun h => ?_⟩
  · rw [hscripts]
    exact List.mem_cons_of_mem _ (List.mem_singleton_self _)
  · have hin := (hmem _).2 h
    rw [hscripts] at hin
    exact absurd hin (by decide +kernel)

end Disk

end RouteScript
