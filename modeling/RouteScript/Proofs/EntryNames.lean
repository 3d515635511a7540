import RouteScript.Workspace.Disk

/-!
# Names in paths

A directory holds its entries under names.  Such a name is not empty, has no slash in it and is
neither of the two names that lead from a directory to itself and out of it.  A path with a name put
behind it has one component more, and it leads one entry further, however the path is spelled.

* `Path.names_append`: the names of a path in front of its last slash and behind it.
* `Path.components_join`: the components of a path with a name put behind it.
* `Path.isScript_iff`: the names of scripts.
* `Disk.walk_append`, `Disk.resolve_foldl_join`: where a path leads with names put behind it.
-/

namespace RouteScript

namespace Text

theorem splitOn_of_notMem {sep : Char} {t : Text} (h : sep ∉ t) : splitOn sep t = [t] := by
  induction t with
  | nil => rfl
  | cons c t ih =>
    have hc : c ≠ sep := fun hc => h (hc ▸ List.mem_cons_self)
    rw [splitOn, if_neg hc, ih fun ht => h (List.mem_cons_of_mem c ht)]

theorem splitOn_append_cons (sep : Char) (s t : Text) :
    splitOn sep (s ++ sep :: t) = splitOn sep s ++ splitOn sep t := by
  induction s with
  | nil => simp [splitOn]
  | cons c s ih =>
    rw [List.cons_append, splitOn, splitOn, ih]
    split
    · rfl
    · cases hs : splitOn sep s with
      | nil => exact absurd hs (splitOn_ne_nil sep s)
      | cons part parts => rfl

end Text

namespace Path

/-- The text can be the name of an entry: it is not empty, has no slash in it and is neither `.` nor
`..`. -/
structure IsEntryName (name : Text) : Prop where
  ne_nil : name ≠ []
  slash : '/' ∉ name
  ne_here : name ≠ ['.']
  ne_up : name ≠ ['.', '.']

theorem isEntryName_iff {name : Text} : IsEntryName name ↔
    name ≠ [] ∧ '/' ∉ name ∧ name ≠ ['.'] ∧ name ≠ ['.', '.'] :=
  ⟨fun ⟨h₁, h₂, h₃, h₄⟩ => ⟨h₁, h₂, h₃, h₄⟩, fun ⟨h₁, h₂, h₃, h₄⟩ => ⟨h₁, h₂, h₃, h₄⟩⟩

instance (name : Text) : Decidable (IsEntryName name) := decidable_of_iff' _ isEntryName_iff

namespace IsEntryName

variable {name : Text}

theorem isVoid (h : IsEntryName name) : isVoid name = false := by
  simp [Path.isVoid, h.ne_nil, h.ne_here]

theorem inner? (h : IsEntryName name) : inner? name = some (.name name) := by
  simp [Path.inner?, h.isVoid, h.ne_up]

theorem isAbsolute (h : IsEntryName name) : isAbsolute ⟨name⟩ = false := by
  rw [Path.isAbsolute, beq_eq_false_iff_ne]
  exact fun hhead => h.slash (List.mem_of_mem_head? hhead)

end IsEntryName

/-- What a name is put behind, to make a path below another. -/
def front (p : Path) : Text :=
  if p.text = [] ∨ p.text.getLast? = some '/' then p.text else p.text ++ ['/']

theorem front_cases (p : Path) : p.front = [] ∨ p.front.getLast? = some '/' := by
  unfold front
  split
  · assumption
  · exact .inr List.getLast?_concat

variable {p : Path} {name : Text}

theorem join_eq (p : Path) (h : IsEntryName name) : p.join ⟨name⟩ = ⟨p.front ++ name⟩ := by
  unfold join front
  rcases ht : p.text with _ | ⟨c, t⟩
  · simp [h.isAbsolute]
  · by_cases hlast : (c :: t).getLast? = some '/' <;> simp [h.isAbsolute, hlast]

theorem front_mk (f : Text) (h : IsEntryName name) : front ⟨f ++ name⟩ = f ++ name ++ ['/'] := by
  have hlast : (f ++ name).getLast? ≠ some '/' := by
    rw [List.getLast?_append, List.getLast?_eq_some_getLast h.ne_nil, Option.some_or]
    exact fun hlast => h.slash (Option.some.inj hlast ▸ List.getLast_mem h.ne_nil)
  rw [front, if_neg fun hor => hor.elim (by simp [h.ne_nil]) hlast]

/-- The last name of a path is what stands behind its last slash. -/
theorem names_append (t : Text) {last : Text} (h : '/' ∉ last) :
    names ⟨t ++ '/' :: last⟩ = (if t = [] then [] else names ⟨t⟩) ++ [last] := by
  have hsplit : Text.splitOn '/' (t ++ '/' :: last) = Text.splitOn '/' t ++ [last] := by
    rw [Text.splitOn_append_cons, Text.splitOn_of_notMem h]
  cases t with
  | nil => simp [names, isAbsolute, Text.splitOn, Text.splitOn_of_notMem h]
  | cons c t =>
    obtain ⟨part, parts, hparts⟩ := List.exists_cons_of_ne_nil (Text.splitOn_ne_nil '/' (c :: t))
    have habs : isAbsolute ⟨c :: t ++ '/' :: last⟩ = isAbsolute ⟨c :: t⟩ := rfl
    simp only [names, habs, hsplit, hparts, if_neg (List.cons_ne_nil c t)]
    split <;> rfl

theorem names_concat {f : Text} (hf : f = [] ∨ f.getLast? = some '/') (h : IsEntryName name) :
    ∃ before, names ⟨f ++ name⟩ = before ++ [name] := by
  rcases hf with rfl | hf
  · refine ⟨[], ?_⟩
    simp [names, h.isAbsolute, Text.splitOn_of_notMem h.slash]
  · obtain ⟨g, rfl⟩ := List.getLast?_eq_some_iff.1 hf
    rw [List.append_assoc, List.singleton_append, names_append g h.slash]
    exact ⟨_, rfl⟩

theorem dropVoid_concat (before : List Text) (h : IsEntryName name) :
    dropVoid (before ++ [name]) = before ++ [name] := by
  rw [dropVoid, List.reverse_append, List.reverse_singleton, List.singleton_append,
    List.dropWhile_cons_of_neg (by simp [h.isVoid])]
  simp

theorem dropVoidRelative_concat (before : List Text) (h : IsEntryName name) :
    dropVoidRelative (before ++ [name]) = before ++ [name] := by
  unfold dropVoidRelative
  split
  · rename_i rest heq
    rcases before with _ | ⟨b, before⟩
    · cases heq
      cases h.isVoid
    · obtain ⟨rfl, hrest⟩ := List.cons.inj heq
      rw [← hrest, List.append_eq, dropVoid_concat before h, List.cons_append]
  · exact dropVoid_concat before h

/-! ### Components -/

/-- The components are those of the names, behind that of the root or of a leading dot. -/
theorem components_eq (p : Path) : p.components =
    (if p.isAbsolute then [.root] else if p.names.head? = some ['.'] then [.here] else []) ++
      p.names.filterMap inner? := by
  unfold components
  split
  · rfl
  · split
    · rename_i rest hnames
      rw [hnames]
      rfl
    · rename_i hhead
      rw [if_neg fun h => ?_, List.nil_append]
      obtain ⟨rest, hrest⟩ := List.head?_eq_some_iff.1 h
      exact hhead rest hrest

theorem fileName?_of_names {before : List Text} (hp : p.names = before ++ [name])
    (h : IsEntryName name) : p.fileName? = some name := by
  rw [fileName?, components_eq, hp, List.filterMap_append, List.filterMap_cons, h.inner?,
    List.filterMap_nil, ← List.append_assoc, List.getLast?_concat]

/-- A name put behind a path is its last name, in place of an empty one if the path ends in a
slash. -/
theorem names_join (hp : p.text ≠ []) (h : IsEntryName name) :
    (p.join ⟨name⟩).names = p.names ++ [name] ∨
      ∃ before, p.names = before ++ [[]] ∧ (p.join ⟨name⟩).names = before ++ [name] := by
  rw [p.join_eq h, front]
  by_cases hlast : p.text.getLast? = some '/'
  · obtain ⟨t, ht⟩ := List.getLast?_eq_some_iff.1 hlast
    have hnames := names_append t (List.not_mem_nil (a := '/'))
    rw [if_pos (.inr hlast), ht, List.append_assoc, List.singleton_append, names_append t h.slash]
    refine .inr ⟨_, ?_, rfl⟩
    rw [← hnames, ← ht]
  · rw [if_neg fun hor => hor.elim hp hlast, List.append_assoc, List.singleton_append,
      names_append p.text h.slash, if_neg hp]
    exact .inl rfl

theorem isAbsolute_join (hp : p.text ≠ []) (h : IsEntryName name) :
    (p.join ⟨name⟩).isAbsolute = p.isAbsolute := by
  obtain ⟨c, t, ht⟩ := List.exists_cons_of_ne_nil hp
  rw [p.join_eq h, isAbsolute, isAbsolute, front, ht]
  split <;> rfl

theorem text_join_ne_nil (p : Path) (h : IsEntryName name) : (p.join ⟨name⟩).text ≠ [] := by
  rw [p.join_eq h]
  exact List.append_ne_nil_of_right_ne_nil _ h.ne_nil

/-- A path with a name put behind it has one component more. -/
theorem components_join (hp : p.text ≠ []) (h : IsEntryName name) :
    (p.join ⟨name⟩).components = p.components ++ [.name name] := by
  have hinner : ∀ before, (before ++ [name]).filterMap inner? =
      before.filterMap inner? ++ [.name name] := fun before => by
    rw [List.filterMap_append, List.filterMap_cons, h.inner?, List.filterMap_nil]
  -- no last name but a dot matters for whether the path starts with one
  have hhead : ∀ before : List Text, ∀ last ≠ ['.'],
      ((before ++ [last]).head? = some ['.']) = (before.head? = some ['.']) := by
    intro before last hlast
    cases before with
    | nil => simp [hlast]
    | cons first before => rfl
  rw [components_eq, components_eq, isAbsolute_join hp h]
  rcases names_join hp h with hnames | ⟨before, hnames, hjoin⟩
  · simp only [hnames, hinner, hhead _ _ h.ne_here, List.append_assoc]
  · have hvoid : (before ++ [[]]).filterMap inner? = before.filterMap inner? := by
      rw [List.filterMap_append]
      exact List.append_nil _
    have hempty : ([] : Text) ≠ ['.'] := by decide
    simp only [hnames, hjoin, hinner, hvoid, hhead _ _ h.ne_here, hhead _ _ hempty,
      List.append_assoc]

theorem components_foldl_join (hp : p.text ≠ []) {names : List Text}
    (h : ∀ name ∈ names, IsEntryName name) :
    (names.foldl (fun p name => p.join ⟨name⟩) p).components =
      p.components ++ names.map .name := by
  induction names generalizing p with
  | nil => simp
  | cons name names ih =>
    obtain ⟨hname, hnames⟩ := List.forall_mem_cons.1 h
    rw [List.foldl_cons, ih (p.text_join_ne_nil hname) hnames, components_join hp hname,
      List.append_assoc, List.map_cons, List.singleton_append]

/-! ### Extensions -/

/-- A file name is cut at its last dot, unless it starts with that. -/
theorem stemAndExtension_append (stem : Text) {extension : Text} (h : '.' ∉ extension) :
    stemAndExtension (stem ++ '.' :: extension) =
      if stem = [] then (stem ++ '.' :: extension, none) else (stem, some extension) := by
  obtain ⟨part, parts, hparts⟩ := List.exists_cons_of_ne_nil
    (List.reverse_ne_nil_iff.2 (Text.splitOn_ne_nil '.' stem))
  have hstem : Text.joinWith '.' (part :: parts).reverse = stem := by
    rw [← hparts, List.reverse_reverse, Text.joinWith_splitOn]
  rw [stemAndExtension, Text.splitOn_append_cons, Text.splitOn_of_notMem h, List.reverse_append,
    List.reverse_singleton, List.singleton_append, hparts]
  simp only [hstem, List.isEmpty_iff]

/-- A script is a file whose name ends in `.py` behind something else. -/
theorem isScript_iff : p.isScript = true ↔
    ∃ stem, stem ≠ [] ∧ p.fileName? = some (stem ++ ".py".toList) := by
  rw [isScript, extension?, beq_iff_eq, Option.bind_eq_some_iff]
  constructor
  · rintro ⟨name, hname, hext⟩
    by_cases hdot : '.' ∈ name
    · obtain ⟨back, front, hcut, hback⟩ := List.eq_append_cons_of_mem (List.mem_reverse.2 hdot)
      obtain rfl : name = front.reverse ++ '.' :: back.reverse := by
        simpa using congrArg List.reverse hcut
      rw [stemAndExtension_append _ (by simpa using hback)] at hext
      split at hext
      · cases hext
      · rename_i hstem
        refine ⟨front.reverse, hstem, ?_⟩
        rw [hname, Option.some.inj hext]
        rfl
    · rw [stemAndExtension, Text.splitOn_of_notMem hdot] at hext
      cases hext
  · rintro ⟨stem, hstem, hname⟩
    refine ⟨_, hname, ?_⟩
    rw [show stem ++ ".py".toList = stem ++ '.' :: ['p', 'y'] from rfl,
      stemAndExtension_append stem (by decide), if_neg hstem]

end Path

/-! ### Where a path leads -/

namespace Disk

variable {d : Disk} {place q : Place} {p : Path} {name : Text} {ns ms names : List Text}

theorem walk_nil : d.walk place [] = .ok q ↔ q = place ∧ (d.entry? place).isSome = true := by
  rw [walk]
  split
  · rename_i h
    simp [h, eq_comm]
  · rename_i h
    simp [h]

theorem walk_cons : d.walk place (name :: ns) = .ok q ↔
    d.entry? place = some .directory ∧ d.walk (enter place name) ns = .ok q := by
  rw [walk]
  split <;> simp_all

/-- Something stands where names lead from. -/
theorem isSome_start_of_walk (h : d.walk place ns = .ok q) : (d.entry? place).isSome = true := by
  cases ns with
  | nil => exact (walk_nil.1 h).2
  | cons n ns => simp [(walk_cons.1 h).1]

/-- Something stands where names lead to. -/
theorem isSome_stop_of_walk (h : d.walk place ns = .ok q) : (d.entry? q).isSome = true := by
  induction ns generalizing place with
  | nil =>
    obtain ⟨rfl, hsome⟩ := walk_nil.1 h
    exact hsome
  | cons n ns ih => exact ih (walk_cons.1 h).2

/-- Names that follow others lead on from the place where those lead to. -/
theorem walk_append : d.walk place (ns ++ ms) = .ok q ↔
    ∃ mid, d.walk place ns = .ok mid ∧ d.walk mid ms = .ok q := by
  induction ns generalizing place with
  | nil =>
    simp only [List.nil_append, walk_nil]
    exact ⟨fun h => ⟨place, ⟨rfl, isSome_start_of_walk h⟩, h⟩, fun ⟨_, ⟨rfl, _⟩, h⟩ => h⟩
  | cons n ns ih => simp only [List.cons_append, walk_cons, ih, and_assoc, exists_and_left]

theorem enter_eq (place : Place) (h : Path.IsEntryName name) :
    enter place name = place ++ [name] := by
  rw [enter, h.inner?]

theorem resolve_eq (d : Disk) (hp : p.text ≠ []) : d.resolve p = d.walk (d.origin p) p.names := by
  rw [resolve, if_neg (by simpa using hp)]

/-- A path with a name put behind it leads to the entry of that name. -/
theorem resolve_join (hp : p.text ≠ []) (h : Path.IsEntryName name) :
    d.resolve (p.join ⟨name⟩) = .ok q ↔
      ∃ place, d.resolve p = .ok place ∧ d.walk place [name] = .ok q := by
  have horigin : d.origin (p.join ⟨name⟩) = d.origin p := by
    rw [origin, origin, Path.isAbsolute_join hp h]
  rw [resolve_eq d hp, resolve_eq d (p.text_join_ne_nil h), horigin]
  rcases Path.names_join hp h with hnames | ⟨before, hnames, hjoin⟩
  · rw [hnames, walk_append]
  · -- an empty name at the end leads nowhere else, but only from a directory
    simp only [hnames, hjoin, walk_append, walk_cons, walk_nil, show ∀ place, enter place [] = place
      from fun _ => rfl]
    constructor
    · rintro ⟨mid, hmid, hdir, hq⟩
      exact ⟨mid, ⟨mid, hmid, hdir, rfl, by simp [hdir]⟩, hdir, hq⟩
    · rintro ⟨_, ⟨mid, hmid, hdir, rfl, -⟩, -, hq⟩
      exact ⟨_, hmid, hdir, hq⟩

/-- A path with names put behind it leads where these lead to from the place of the path. -/
theorem resolve_foldl_join (hp : p.text ≠ []) (h : ∀ name ∈ names, Path.IsEntryName name) :
    d.resolve (names.foldl (fun p name => p.join ⟨name⟩) p) = .ok q ↔
      ∃ place, d.resolve p = .ok place ∧ d.walk place names = .ok q := by
  induction names generalizing p with
  | nil =>
    simp only [List.foldl_nil, walk_nil]
    constructor
    · intro hq
      refine ⟨q, hq, rfl, ?_⟩
      rw [resolve_eq d hp] at hq
      exact isSome_stop_of_walk hq
    · rintro ⟨_, hq, rfl, -⟩
      exact hq
  | cons name names ih =>
    obtain ⟨hname, hnames⟩ := List.forall_mem_cons.1 h
    have hfirst : ∀ place, d.walk place (name :: names) = .ok q ↔
        ∃ mid, d.walk place [name] = .ok mid ∧ d.walk mid names = .ok q :=
      fun place => by rw [← walk_append, List.singleton_append]
    rw [List.foldl_cons, ih (p.text_join_ne_nil hname) hnames]
    simp only [resolve_join hp hname, hfirst]
    constructor
    · rintro ⟨mid, ⟨place, hplace, hmid⟩, hq⟩
      exact ⟨place, hplace, mid, hmid, hq⟩
    · rintro ⟨place, hplace, mid, hmid, hq⟩
      exact ⟨mid, ⟨place, hplace, hmid⟩, hq⟩

end Disk

end RouteScript
