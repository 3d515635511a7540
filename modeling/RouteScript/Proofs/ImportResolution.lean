import Mathlib.Data.List.Forall2
import Mathlib.Logic.Function.Iterate
import RouteScript.Proofs.EntryNames
import RouteScript.Proofs.PathSpelling
import RouteScript.Script.Resolution

/-!
# Which document an import leads to

A module may lie in several files: below each of some directories, and there in a file of its own or in
that of a package.  The files come in a fixed order, and an import leads to the first that is a known
document.  A name imported from a package, or from a module that is unknown, may be a module of its
own; then the import is one of that module.

* `Path.withExtension_of_isName`, `Form.file_text`: how the files are spelled.
* `IsBase`, `IsCandidate`, `Precedes`: the directories, the files and their order.
* `ranked`, `mem_ranked_iff`, `pairwise_ranked`: the files as a list in that order.
* `resolve?_eq_some_iff`, `resolve?_eq_none_iff`: the first known file is the one that is found.
* `bind_of_nests`, `bind_of_not_nests`, `bind_bind`: what becomes of an import.
* `resolution_firstMatch`: all of it together.
-/

namespace RouteScript

/-! ### Names in paths -/

namespace Text

theorem splitOn_joinWith {sep : Char} {parts : List Text} (hne : parts ≠ [])
    (h : ∀ part ∈ parts, sep ∉ part) : splitOn sep (joinWith sep parts) = parts := by
  induction parts with
  | nil => exact absurd rfl hne
  | cons part parts ih =>
    obtain ⟨hpart, hparts⟩ := List.forall_mem_cons.1 h
    cases parts with
    | nil => exact splitOn_of_notMem hpart
    | cons next parts =>
      rw [joinWith, splitOn_append_cons, splitOn_of_notMem hpart,
        ih (List.cons_ne_nil next parts) hparts, List.singleton_append]
      exact List.cons_ne_nil next parts

theorem joinWith_concat (sep : Char) (parts : List Text) (last more : Text) :
    joinWith sep (parts ++ [last ++ more]) = joinWith sep (parts ++ [last]) ++ more := by
  induction parts with
  | nil => rfl
  | cons part parts ih =>
    obtain ⟨q, qs, hq⟩ := List.exists_cons_of_ne_nil (by simp : parts ++ [last ++ more] ≠ [])
    obtain ⟨r, rs, hr⟩ := List.exists_cons_of_ne_nil (by simp : parts ++ [last] ≠ [])
    have hcons : ∀ {q qs}, joinWith sep (part :: q :: qs) = part ++ sep :: joinWith sep (q :: qs) :=
      rfl
    rw [List.cons_append, List.cons_append, hq, hr, hcons, hcons, ← hq, ← hr, ih, List.append_assoc,
      List.cons_append]

end Text

namespace Path

/-- The text is a name by itself: not empty, without slashes and without dots. -/
structure IsName (name : Text) : Prop where
  ne_nil : name ≠ []
  slash : '/' ∉ name
  dot : '.' ∉ name

namespace IsName

variable {name : Text}

theorem isEntryName (h : IsName name) : IsEntryName name where
  ne_nil := h.ne_nil
  slash := h.slash
  ne_here heq := h.dot (heq ▸ List.mem_cons_self)
  ne_up heq := h.dot (heq ▸ List.mem_cons_self)

theorem stemAndExtension (h : IsName name) : stemAndExtension name = (name, none) := by
  rw [Path.stemAndExtension, Text.splitOn_of_notMem h.dot]
  rfl

end IsName

/-- The extension of a path that ends in a name is written behind it. -/
theorem withExtension_of_isName {name f : Text} (hf : f = [] ∨ f.getLast? = some '/')
    (h : IsName name) (extension : Text) :
    withExtension ⟨f ++ name⟩ extension = ⟨f ++ name ++ '.' :: extension⟩ := by
  have hentry := h.isEntryName
  obtain ⟨before, hnames⟩ := names_concat hf hentry
  have htext := text_eq ⟨f ++ name⟩
  rw [hnames] at htext
  have hrest := Text.joinWith_concat '/' before name ('.' :: extension)
  simp only [withExtension, fileName?_of_names hnames hentry, h.stemAndExtension, hnames,
    dropVoid_concat before hentry, dropVoidRelative_concat before hentry, List.dropLast_concat, hrest]
  rw [show f ++ name ++ '.' :: extension = _ from congrArg (· ++ '.' :: extension) htext]
  split <;> rfl

end Path

namespace Resolution

/-! ### Where a module may lie -/

/-- The path is some dots and the rest, which starts with none. -/
structure Splits (path : String) (dots : Nat) (rest : Text) : Prop where
  eq : path.toList = List.replicate dots '.' ++ rest
  head : rest.head? ≠ some '.'

/-- The names between the dots. -/
def segments (rest : Text) : List Text := (Text.splitOn '.' rest).filter fun s => !s.isEmpty

/-- The directory that the names lead to, or the file without its extension. -/
def descend (base : Path) (names : List Text) : Path := names.foldl (fun p s => p.join ⟨s⟩) base

/-- What a module may be. -/
inductive Form where
  /-- A file. -/
  | module
  /-- A directory with a file of a certain name. -/
  | package
deriving DecidableEq, Repr

/-- The file of a module below a directory. -/
def Form.file (base : Path) (names : List Text) : Form → Path
  | .module => (descend base names).withExtension ['p', 'y']
  | .package => (descend base names).join packageFile

theorem descend_text (base : Path) {names : List Text} (hne : names ≠ [])
    (h : ∀ name ∈ names, Path.IsName name) : ∃ f last, (f = [] ∨ f.getLast? = some '/') ∧
      Path.IsName last ∧ descend base names = ⟨f ++ last⟩ ∧
      f ++ last = base.front ++ Text.joinWith '/' names := by
  induction names generalizing base with
  | nil => exact absurd rfl hne
  | cons name names ih =>
    obtain ⟨hname, hnames⟩ := List.forall_mem_cons.1 h
    rw [descend, List.foldl_cons, base.join_eq hname.isEntryName]
    cases names with
    | nil => exact ⟨base.front, name, base.front_cases, hname, rfl, rfl⟩
    | cons next names =>
      obtain ⟨f, last, hf, hlast, hdescend, htext⟩ :=
        ih ⟨base.front ++ name⟩ (List.cons_ne_nil next names) hnames
      refine ⟨f, last, hf, hlast, hdescend, ?_⟩
      rw [htext, Path.front_mk _ hname.isEntryName]
      simp only [Text.joinWith, List.append_assoc, List.singleton_append]

/-- Below a directory, the module `a.b` is the file `a/b.py`, and the package `a/b/__init__.py`. -/
theorem Form.file_text (base : Path) {names : List Text} (hne : names ≠ [])
    (h : ∀ name ∈ names, Path.IsName name) :
    (Form.module.file base names).text =
      base.front ++ (Text.joinWith '/' names ++ ".py".toList) ∧
    (Form.package.file base names).text =
      base.front ++ (Text.joinWith '/' names ++ "/__init__.py".toList) := by
  obtain ⟨f, last, hf, hlast, hdescend, htext⟩ := descend_text base hne h
  have hfile : packageFile.isAbsolute = false := by decide
  have hend : (f ++ last).getLast? ≠ some '/' := by
    rw [List.getLast?_append_of_ne_nil f hlast.ne_nil]
    exact fun heq => hlast.slash (List.mem_of_mem_getLast? heq)
  constructor
  · rw [file, hdescend, Path.withExtension_of_isName hf hlast, htext, List.append_assoc]
    rfl
  · rw [file, hdescend, Path.join, hfile]
    simp only [Bool.false_or, List.isEmpty_iff, List.append_eq_nil_iff, hlast.ne_nil, and_false,
      if_false, beq_iff_eq, hend]
    rw [htext, List.append_assoc]
    rfl

/-- A path of names with dots between is cut into these names. -/
theorem segments_joinWith {names : List Text} (hne : names ≠ [])
    (h : ∀ name ∈ names, Path.IsName name) : segments (Text.joinWith '.' names) = names := by
  rw [segments, Text.splitOn_joinWith hne fun name hname => (h name hname).dot,
    List.filter_eq_self]
  exact fun name hname => by simp [(h name hname).ne_nil]

/-- A module path is looked up below the directory, which is the one of the given rank: each root and
then that of the importing document, or that `n` levels up if there are `n + 1` dots. -/
inductive IsBase (roots : List Path) (importer : String) :
    (dots : Nat) → (rest : Text) → (rank : Nat) → Path → Prop where
  | root {rest : Text} {i : Nat} {base : Path} (hrest : rest ≠ []) (h : roots[i]? = some base) :
      IsBase roots importer 0 rest i base
  | own {rest : Text} {base : Path} (hrest : rest ≠ []) (h : Uri.directory? importer = some base) :
      IsBase roots importer 0 rest roots.length base
  | above {rest : Text} {n : Nat} {base : Path}
      (h : (fun p : Option Path => p.bind Path.parent?)^[n] (Uri.directory? importer) = some base) :
      IsBase roots importer (n + 1) rest 0 base

/-- The module may be the document under the URI, in the given form below the directory of the given
rank.  A path of dots names a package. -/
inductive IsCandidate (roots : List Path) (importer path : String) : Nat → Form → String → Prop where
  | module {n i : Nat} {rest : Text} {base : Path} (hs : Splits path n rest) (hrest : rest ≠ [])
      (h : IsBase roots importer n rest i base) : IsCandidate roots importer path i .module
        (Uri.ofPath (Form.module.file base (segments rest)))
  | package {n i : Nat} {rest : Text} {base : Path} (hs : Splits path n rest)
      (h : IsBase roots importer n rest i base) : IsCandidate roots importer path i .package
        (Uri.ofPath (Form.package.file base (segments rest)))

/-- The file comes before the other: its directory does, or below the same one it is that of the module
and the other that of the package. -/
def Precedes (i : Nat) (form : Form) (j : Nat) (form' : Form) : Prop :=
  i < j ∨ i = j ∧ form = .module ∧ form' = .package

/-! ### The order as a list -/

theorem Splits.takeWhile {path : String} {n : Nat} {rest : Text} (h : Splits path n rest) :
    (path.toList.takeWhile (· == '.')).length = n ∧ path.toList.dropWhile (· == '.') = rest := by
  have hrest : rest.takeWhile (· == '.') = [] ∧ rest.dropWhile (· == '.') = rest := by
    cases rest with
    | nil => exact ⟨rfl, rfl⟩
    | cons c rest =>
      have hc : (c == '.') = false := beq_eq_false_iff_ne.2 fun heq => h.head (by rw [heq]; rfl)
      rw [List.takeWhile_cons, List.dropWhile_cons, hc]
      exact ⟨rfl, rfl⟩
  have hdots : ∀ c ∈ List.replicate n '.', (c == '.') = true := fun c hc => by
    rw [List.eq_of_mem_replicate hc]
    rfl
  rw [h.eq, List.takeWhile_append_of_pos hdots, List.dropWhile_append_of_pos hdots, hrest.1, hrest.2]
  simp

/-- Every path is some dots and a rest. -/
theorem splits (path : String) :
    Splits path (path.toList.takeWhile (· == '.')).length (path.toList.dropWhile (· == '.')) := by
  refine ⟨?_, fun hhead => ?_⟩
  · have hdots : path.toList.takeWhile (· == '.') =
        List.replicate (path.toList.takeWhile (· == '.')).length '.' :=
      List.eq_replicate_of_mem fun c hc => beq_iff_eq.1 (List.all_eq_true.1 List.all_takeWhile c hc)
    rw [← hdots, List.takeWhile_append_dropWhile]
  · have hstop := List.head?_dropWhile_not (· == '.') path.toList
    rw [hhead] at hstop
    cases hstop

theorem ancestor?_eq_iterate (n : Nat) (p : Option Path) :
    p.bind (ancestor? n) = (fun p : Option Path => p.bind Path.parent?)^[n] p := by
  induction n generalizing p with
  | zero => cases p <;> rfl
  | succ n ih =>
    rw [Function.iterate_succ_apply, ← ih]
    cases p <;> rfl

theorem isBase_iff {roots : List Path} {importer path : String} {n i : Nat} {rest : Text}
    {base : Path} (hs : Splits path n rest) :
    (bases path.toList importer roots)[i]? = some base ↔ IsBase roots importer n rest i base := by
  rw [bases, hs.takeWhile.1]
  cases n with
  | zero =>
    have hpath : path.toList = rest := by simpa using hs.eq
    simp only [hpath, List.isEmpty_iff]
    split
    · rename_i hnil
      refine ⟨fun h => by simp at h, fun h => ?_⟩
      cases h with
      | root hrest => exact absurd hnil hrest
      | own hrest => exact absurd hnil hrest
    · rename_i hrest
      constructor
      · intro h
        rcases Nat.lt_or_ge i roots.length with hi | hi
        · rw [List.getElem?_append_left hi] at h
          exact .root hrest h
        · rw [List.getElem?_append_right hi] at h
          cases hdir : Uri.directory? importer with
          | none => simp [hdir] at h
          | some dir =>
            rw [hdir, Option.toList_some, List.getElem?_singleton] at h
            split at h
            · cases h
              obtain rfl : i = roots.length := by omega
              exact .own hrest hdir
            · cases h
      · rintro (⟨-, h⟩ | ⟨-, h⟩)
        · rw [List.getElem?_append_left (List.getElem?_eq_some_iff.1 h).1, h]
        · rw [List.getElem?_append_right (Nat.le_refl _), Nat.sub_self, h]
          rfl
  | succ n =>
    simp only [ancestor?_eq_iterate]
    constructor
    · intro h
      cases hup : (fun p : Option Path => p.bind Path.parent?)^[n] (Uri.directory? importer) with
      | none => simp [hup] at h
      | some up =>
        rw [hup, Option.toList_some, List.getElem?_singleton] at h
        split at h
        · rename_i hi
          cases h
          subst hi
          exact .above hup
        · cases h
    · rintro (_ | _ | ⟨h⟩)
      rw [h]
      rfl

/-- The files below a directory, with their forms. -/
def filesBelow (rest : Text) (base : Path) : List (Form × String) :=
  (if rest = [] then [] else [(.module, Uri.ofPath (Form.module.file base (segments rest)))]) ++
    [(.package, Uri.ofPath (Form.package.file base (segments rest)))]

/-- The files in their order, with the ranks of their directories and their forms. -/
def ranked (roots : List Path) (importer path : String) : List (Nat × Form × String) :=
  (bases path.toList importer roots).zipIdx.flatMap fun x =>
    (filesBelow (path.toList.dropWhile (· == '.')) x.1).map fun file => (x.2, file)

theorem map_filesBelow (rest : Text) (base : Path) :
    (filesBelow rest base).map (·.2) = (candidates base rest).map Uri.ofPath := by
  unfold filesBelow candidates
  cases rest <;> rfl

theorem candidateUris_eq (roots : List Path) (importer path : String) :
    candidateUris path importer roots = (ranked roots importer path).map (·.2.2) := by
  rw [candidateUris, ranked, List.map_flatMap]
  simp only [List.map_map, Function.comp_def, ← map_filesBelow]
  conv_lhs => rw [← List.zipIdx_map_fst 0 (bases path.toList importer roots)]
  rw [List.flatMap_map]

theorem mem_ranked_iff {roots : List Path} {importer path : String} {i : Nat} {form : Form}
    {uri : String} : (i, form, uri) ∈ ranked roots importer path ↔
      IsCandidate roots importer path i form uri := by
  have hs := splits path
  have hmem : ∀ {rest base}, (form, uri) ∈ filesBelow rest base ↔
      (rest ≠ [] ∧ form = .module ∧ uri = Uri.ofPath (Form.module.file base (segments rest))) ∨
        (form = .package ∧ uri = Uri.ofPath (Form.package.file base (segments rest))) := by
    intro rest base
    unfold filesBelow
    split <;> simp_all
  have hfiles : (i, form, uri) ∈ ranked roots importer path ↔
      ∃ base, (bases path.toList importer roots)[i]? = some base ∧
        (form, uri) ∈ filesBelow (path.toList.dropWhile (· == '.')) base := by
    simp only [ranked, List.mem_flatMap, List.mem_map, Prod.mk.injEq, Prod.exists]
    constructor
    · rintro ⟨base, j, hb, _, _, hf, rfl, rfl, rfl⟩
      exact ⟨base, List.mk_mem_zipIdx_iff_getElem?.1 hb, hf⟩
    · rintro ⟨base, hb, hf⟩
      exact ⟨base, i, List.mk_mem_zipIdx_iff_getElem?.2 hb, form, uri, hf, rfl, rfl, rfl⟩
  rw [hfiles]
  constructor
  · rintro ⟨base, hb, hf⟩
    rcases hmem.1 hf with ⟨hrest, rfl, rfl⟩ | ⟨rfl, rfl⟩
    · exact .module hs hrest ((isBase_iff hs).1 hb)
    · exact .package hs ((isBase_iff hs).1 hb)
  · rintro (⟨hs', hrest, h⟩ | ⟨hs', h⟩)
    · rw [hs'.takeWhile.2]
      exact ⟨_, (isBase_iff hs').2 h, hmem.2 (.inl ⟨hrest, rfl, rfl⟩)⟩
    · rw [hs'.takeWhile.2]
      exact ⟨_, (isBase_iff hs').2 h, hmem.2 (.inr ⟨rfl, rfl⟩)⟩

/-- The files come in their order. -/
theorem pairwise_ranked (roots : List Path) (importer path : String) :
    (ranked roots importer path).Pairwise fun a b => Precedes a.1 a.2.1 b.1 b.2.1 := by
  refine List.pairwise_flatMap.2 ⟨fun x _ => ?_, ?_⟩
  · refine List.pairwise_map.2 ?_
    unfold filesBelow
    split
    · exact List.pairwise_singleton ..
    · exact List.pairwise_pair.2 (.inr ⟨rfl, rfl, rfl⟩)
  · have hidx : ((bases path.toList importer roots).zipIdx.map (·.2)).Pairwise (· < ·) := by
      rw [List.zipIdx_map_snd]
      exact List.pairwise_lt_range'
    refine (List.pairwise_map.1 hidx).imp fun hlt a ha b hb => ?_
    obtain ⟨_, -, rfl⟩ := List.mem_map.1 ha
    obtain ⟨_, -, rfl⟩ := List.mem_map.1 hb
    exact .inl hlt

theorem not_precedes_of_precedes {i j : Nat} {form form' : Form} (h : Precedes i form j form') :
    ¬ Precedes j form' i form := by
  rintro (hlt | ⟨heq, rfl, rfl⟩)
  · rcases h with h | ⟨rfl, -, -⟩ <;> omega
  · rcases h with h | ⟨-, h, -⟩
    · omega
    · cases h

/-! ### The first known file -/

section First

variable {known : String → Bool} {roots : List Path} {importer path uri : String}

theorem known_of_resolve? (h : resolve? known roots importer path = some uri) : known uri = true :=
  List.find?_some h

/-- A module is the first of the files that is known. -/
theorem resolve?_eq_some_iff : resolve? known roots importer path = some uri ↔
    ∃ i form, IsCandidate roots importer path i form uri ∧ known uri = true ∧
      ∀ j form' uri', IsCandidate roots importer path j form' uri' → Precedes j form' i form →
        known uri' = false := by
  have hpairwise := pairwise_ranked roots importer path
  rw [resolve?, candidateUris_eq, List.find?_map, Option.map_eq_some_iff]
  simp only [List.find?_eq_some_iff_append, Function.comp_apply, ← mem_ranked_iff]
  constructor
  · rintro ⟨⟨i, form, _⟩, ⟨hknown, before, after, hsplit, hbefore⟩, rfl⟩
    refine ⟨i, form, by rw [hsplit]; simp, hknown, fun j form' uri' hmem hprec => ?_⟩
    rw [hsplit] at hmem hpairwise
    rcases List.mem_append.1 hmem with hmem | hmem
    · exact Bool.not_inj (hbefore _ hmem : _ = !false)
    · rcases List.mem_cons.1 hmem with heq | hmem
      · cases heq
        exact absurd hprec (not_precedes_of_precedes hprec)
      · -- what comes behind in the list does not come before
        have hbehind := (List.pairwise_cons.1 (List.pairwise_append.1 hpairwise).2.1).1 _ hmem
        exact absurd hprec (not_precedes_of_precedes hbehind)
  · rintro ⟨i, form, hmem, hknown, hfirst⟩
    obtain ⟨before, after, hsplit⟩ := List.append_of_mem hmem
    refine ⟨(i, form, uri), ⟨hknown, before, after, hsplit, fun x hx => ?_⟩, rfl⟩
    rw [hsplit] at hfirst hpairwise
    have hprec := (List.pairwise_append.1 hpairwise).2.2 x hx _ List.mem_cons_self
    rw [hfirst x.1 x.2.1 x.2.2 (List.mem_append_left _ hx) hprec]
    rfl

/-- There is no module if and only if none of the files is known. -/
theorem resolve?_eq_none_iff : resolve? known roots importer path = none ↔
    ∀ i form uri, IsCandidate roots importer path i form uri → known uri = false := by
  rw [resolve?, candidateUris_eq, List.find?_eq_none]
  simp only [List.mem_map, forall_exists_index, and_imp, Bool.not_eq_true, ← mem_ranked_iff]
  constructor
  · intro h i form uri hmem
    exact h uri (i, form, uri) hmem rfl
  · rintro h _ ⟨i, form, uri⟩ hmem rfl
    exact h i form uri hmem

end First

/-! ### What becomes of an import -/

section Bind

variable {known : String → Bool} {roots : List Path} {importer : String} {b : Binding} {name : String}

/-- The import is that of a name from a package or from an unknown module, and the name is a module. -/
structure Nests (known : String → Bool) (roots : List Path) (importer : String) (b : Binding)
    (name : String) : Prop where
  target : b.target = .member name
  package : ∀ uri, resolve? known roots importer b.modulePath = some uri →
    ∃ directory, uri = directory ++ "/__init__.py"
  known : ∃ uri, resolve? known roots importer (submodule b.modulePath name) = some uri

theorem isPackage_iff {uri : String} :
    isPackage uri = true ↔ ∃ directory, uri = directory ++ "/__init__.py" := by
  rw [isPackage, Option.isSome_iff_exists]
  simp only [Text.stripFront?_eq_some_iff]
  constructor
  · rintro ⟨rest, h⟩
    refine ⟨String.ofList rest.reverse, String.toList_injective ?_⟩
    rw [String.toList_append, String.toList_ofList, ← List.reverse_inj, h]
    simp
  · rintro ⟨directory, rfl⟩
    exact ⟨directory.toList.reverse, by simp⟩

/-- A name that is a module becomes an import of that module. -/
theorem bind_of_nests (h : Nests known roots importer b name) : bind known roots importer b =
    { b with
      modulePath := submodule b.modulePath name
      target := .whole
      resolved := resolve? known roots importer (submodule b.modulePath name) } := by
  obtain ⟨uri, huri⟩ := h.known
  have hpackage : (resolve? known roots importer b.modulePath).all isPackage = true := by
    cases hm : resolve? known roots importer b.modulePath with
    | none => rfl
    | some found => exact isPackage_iff.2 (h.package found hm)
  simp only [bind, h.target, hpackage, huri, if_true]

/-- All else of any other import is kept. -/
theorem bind_of_not_nests (h : ∀ name, ¬ Nests known roots importer b name) :
    bind known roots importer b =
      { b with resolved := resolve? known roots importer b.modulePath } := by
  unfold bind
  split
  · rename_i name htarget
    simp only
    split
    · rename_i hall
      split
      · rename_i uri huri
        refine absurd ⟨htarget, fun found hfound => ?_, uri, huri⟩ (h name)
        rw [hfound] at hall
        exact isPackage_iff.1 hall
      · rfl
    · rfl
  · rfl

/-- An import leads to a known document. -/
theorem known_of_bind {uri : String} (h : (bind known roots importer b).resolved = some uri) :
    known uri = true := by
  by_cases hn : ∃ name, Nests known roots importer b name
  · obtain ⟨name, hn⟩ := hn
    rw [bind_of_nests hn] at h
    exact known_of_resolve? h
  · rw [bind_of_not_nests (not_exists.1 hn)] at h
    exact known_of_resolve? h

/-- An import of a name becomes one of a module just if the name is a module. -/
theorem target_bind_iff (h : b.target = .member name) :
    (bind known roots importer b).target = .whole ↔ Nests known roots importer b name := by
  constructor
  · intro hwhole
    by_contra hn
    have hnone : ∀ name', ¬ Nests known roots importer b name' := fun name' hn' =>
      hn (Imported.member.inj (h.symm.trans hn'.target) ▸ hn')
    rw [bind_of_not_nests hnone] at hwhole
    cases h.symm.trans hwhole
  · intro hn
    rw [bind_of_nests hn]

/-- What an import has become stays as it is. -/
theorem bind_bind (b : Binding) : bind known roots importer (bind known roots importer b) =
    bind known roots importer b := by
  by_cases hn : ∃ name, Nests known roots importer b name
  · obtain ⟨name, hn⟩ := hn
    rw [bind_of_nests hn]
    exact bind_of_not_nests fun name' hn' => by cases hn'.target
  · have hnone := not_exists.1 hn
    rw [bind_of_not_nests hnone]
    refine bind_of_not_nests fun name hn' => hnone name ?_
    exact ⟨hn'.target, hn'.package, hn'.known⟩

/-- What becomes of an import: the names it binds, its place and how its module is named stay, it leads
to a known document if to any, and it turns into an import of another module just if a name is one. -/
structure Settles (known : String → Bool) (roots : List Path) (importer : String) (b r : Binding) :
    Prop where
  boundName : r.boundName = b.boundName
  accessPath : r.accessPath = b.accessPath
  span : r.span = b.span
  range : r.range = b.range
  isKnown : ∀ uri, r.resolved = some uri → known uri = true
  turns : ∀ name, b.target = .member name →
    (r.target = .whole ↔ Nests known roots importer b name)
  nested : ∀ name, Nests known roots importer b name →
    r.target = .whole ∧ r.modulePath = submodule b.modulePath name ∧
      r.resolved = resolve? known roots importer (submodule b.modulePath name)
  other : (∀ name, ¬ Nests known roots importer b name) → r.target = b.target ∧
    r.modulePath = b.modulePath ∧ r.resolved = resolve? known roots importer b.modulePath

theorem settles_bind (b : Binding) :
    Settles known roots importer b (bind known roots importer b) := by
  have hkept : (bind known roots importer b).boundName = b.boundName ∧
      (bind known roots importer b).accessPath = b.accessPath ∧
      (bind known roots importer b).span = b.span ∧
      (bind known roots importer b).range = b.range := by
    by_cases hn : ∃ name, Nests known roots importer b name
    · obtain ⟨name, hn⟩ := hn
      rw [bind_of_nests hn]
      exact ⟨rfl, rfl, rfl, rfl⟩
    · rw [bind_of_not_nests (not_exists.1 hn)]
      exact ⟨rfl, rfl, rfl, rfl⟩
  obtain ⟨hname, haccess, hspan, hrange⟩ := hkept
  refine ⟨hname, haccess, hspan, hrange, fun uri => known_of_bind, fun name => target_bind_iff,
    fun name hn => ?_, fun hn => ?_⟩
  · rw [bind_of_nests hn]
    exact ⟨rfl, rfl, rfl⟩
  · rw [bind_of_not_nests hn]
    exact ⟨rfl, rfl, rfl⟩

end Bind

/-- **Imports lead to the first known file.**  A module path resolves to the first known document among
its files, directory by directory and as a module before as a package, and to none just if none of
them is known; the files of names without slashes are spelled as one expects.  The imports of a
document are settled one by one, and once settled they stay so. -/
theorem resolution_firstMatch (known : String → Bool) (roots : List Path) (importer : String) :
    (∀ path uri, resolve? known roots importer path = some uri ↔
      ∃ i form, IsCandidate roots importer path i form uri ∧ known uri = true ∧
        ∀ j form' uri', IsCandidate roots importer path j form' uri' → Precedes j form' i form →
          known uri' = false) ∧
    (∀ path, resolve? known roots importer path = none ↔
      ∀ i form uri, IsCandidate roots importer path i form uri → known uri = false) ∧
    (∀ names, names ≠ [] → (∀ name ∈ names, Path.IsName name) →
      segments (Text.joinWith '.' names) = names ∧ ∀ base : Path,
        (Form.module.file base names).text =
          base.front ++ (Text.joinWith '/' names ++ ".py".toList) ∧
        (Form.package.file base names).text =
          base.front ++ (Text.joinWith '/' names ++ "/__init__.py".toList)) ∧
    ∀ bindings : List Binding,
      List.Forall₂ (Settles known roots importer) bindings
        (bindings.map (bind known roots importer)) ∧
      (bindings.map (bind known roots importer)).map (bind known roots importer) =
        bindings.map (bind known roots importer) := by
  refine ⟨fun path uri => resolve?_eq_some_iff, fun path => resolve?_eq_none_iff,
    fun names hne h => ⟨segments_joinWith hne h, fun base => Form.file_text base hne h⟩,
    fun bindings => ⟨?_, ?_⟩⟩
  · rw [List.forall₂_map_right_iff, List.forall₂_same]
    exact fun b _ => settles_bind b
  · rw [List.map_map]
    exact List.map_congr_left fun b _ => bind_bind b

/-- The import `from pkg import tools`. -/
def packageImport : Binding :=
  ⟨"tools", .member "tools", "pkg", "tools", none, ⟨16, 21⟩, ⟨⟨0, 16⟩, ⟨0, 21⟩⟩⟩

/-- The file of a package, and a module below it. -/
def packageKnown (uri : String) : Bool :=
  ["file:///ws/app/pkg/__init__.py", "file:///ws/app/pkg/tools.py"].contains uri

/-- The name is a module of the package in the importing document's directory, behind an empty root. -/
theorem resolution_firstMatch_package :
    let roots := [Path.ofString "/lib"]
    let importer := "file:///ws/app/main.py"
    Nests packageKnown roots importer packageImport "tools" ∧
    (bind packageKnown roots importer packageImport).target = .whole ∧
    (bind packageKnown roots importer packageImport).modulePath = "pkg.tools" ∧
    (bind packageKnown roots importer packageImport).resolved = some "file:///ws/app/pkg/tools.py" ∧
    (∃ i form, IsCandidate roots importer "pkg.tools" i form "file:///ws/app/pkg/tools.py" ∧
      ∀ j form' uri', IsCandidate roots importer "pkg.tools" j form' uri' →
        Precedes j form' i form → packageKnown uri' = false) ∧
    (Form.module.file (.ofString "/ws/app") ["pkg".toList, "tools".toList]).text =
      "/ws/app/pkg/tools.py".toList := by
  intro roots importer
  obtain ⟨hfirst, -, hnames, hbindings⟩ := resolution_firstMatch packageKnown roots importer
  have hmodule : resolve? packageKnown roots importer "pkg" =
      some "file:///ws/app/pkg/__init__.py" := by decide +kernel
  have hnested : resolve? packageKnown roots importer "pkg.tools" =
      some "file:///ws/app/pkg/tools.py" := by decide +kernel
  have hn : Nests packageKnown roots importer packageImport "tools" := by
    refine ⟨rfl, fun uri huri => ?_, _, hnested⟩
    obtain rfl := Option.some.inj (hmodule.symm.trans huri)
    exact ⟨"file:///ws/app/pkg", by decide +kernel⟩
  obtain ⟨hsettles, -⟩ := List.forall₂_cons.1 (hbindings [packageImport]).1
  obtain ⟨htarget, hpath, hresolved⟩ := hsettles.nested "tools" hn
  obtain ⟨i, form, hcandidate, -, hbefore⟩ := (hfirst _ _).1 hnested
  have hplain : ∀ name ∈ ["pkg".toList, "tools".toList], Path.IsName name := by
    intro name hname
    rcases List.mem_pair.1 hname with rfl | rfl
    · exact ⟨by decide +kernel, by decide +kernel, by decide +kernel⟩
    · exact ⟨by decide +kernel, by decide +kernel, by decide +kernel⟩
  refine ⟨hn, htarget, hpath.trans (by decide +kernel), hresolved.trans hnested,
    ⟨i, form, hcandidate, hbefore⟩, ?_⟩
  rw [((hnames _ (List.cons_ne_nil _ _) hplain).2 _).1]
  decide +kernel

end Resolution

end RouteScript
