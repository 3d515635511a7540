import Mathlib.Data.List.Sort
import Mathlib.Data.Prod.Lex
import RouteScript.Proofs.FaultIsolation

/-!
# Merged tokens

The tokens of all analyzers are sorted and, of those that start at one place, only the first is kept.
Since the order of tokens begins with their start, those that start at one place lie side by side in
the sorted list and the least of them comes first.

* `start_le_of_le`: the order of tokens respects their starts.
* `pairwise_firstAtStart`, `exists_mem_firstAtStart`: what is kept of a sorted list.
* `mem_merge_iff`, `pairwise_start_merge`: the merged tokens are the least ones, in strict order.
* `Dispatcher.mem_collect_iff`, `Dispatcher.analyzers_registered`: what there is to merge.
* `Dispatcher.tokens_registered`: the tokens of the analyzers, in whatever order they are
  registered.
-/

namespace RouteScript

namespace SemanticToken

variable {t u : SemanticToken} {last : Option SemanticToken} {ts : List SemanticToken}

/-- Where a token starts; places are ordered by line, then by character. -/
def start (t : SemanticToken) : Nat ×ₗ Nat := toLex (t.line, t.character)

theorem sameStart_iff : t.sameStart u = true ↔ t.start = u.start := by
  simp [sameStart, start]

/-! ### The order of tokens -/

theorem eq_of_order_eq (h : t.order u = .eq) : t = u := by
  simp only [order, compareWords_eq, Ordering.then_eq_eq, Std.LawfulEqCmp.compare_eq_iff_eq] at h
  obtain ⟨hline, hcharacter, hlength, htype, hmodifiers⟩ := h
  cases t
  cases u
  simp_all

theorem le_antisymm (htu : t.le u = true) (hut : u.le t = true) : t = u := by
  rw [le_iff] at htu hut
  have h : order t u = .eq := Std.OrientedCmp.isLE_antisymm htu hut
  exact eq_of_order_eq h

theorem le_refl (t : SemanticToken) : t.le t = true := (le_total t t).elim id id

/-- The start comes first in the order. -/
theorem start_le_of_le (h : t.le u = true) : t.start ≤ u.start := by
  rw [start, start, Prod.Lex.toLex_le_toLex]
  simp only [le_iff, order, Ordering.isLE_then_iff_or, compare_lt_iff_lt, compare_eq_iff_eq] at h
  rcases h with hline | ⟨hline, hcharacter | ⟨hcharacter, -⟩⟩
  · exact .inl hline
  · exact .inr ⟨hline, hcharacter.le⟩
  · exact .inr ⟨hline, hcharacter.le⟩

/-! ### What is kept of a sorted list -/

theorem firstAtStart_cons (last : Option SemanticToken) (t : SemanticToken)
    (ts : List SemanticToken) : firstAtStart last (t :: ts) =
      if ∃ l ∈ last, t.start = l.start then firstAtStart last ts
      else t :: firstAtStart (some t) ts := by
  rw [firstAtStart]
  refine if_congr ?_ rfl rfl
  simp only [Option.any_eq_true, sameStart_iff, Option.mem_def]

/-- The tokens are sorted and none of them comes before the last one that was kept. -/
structure Ahead (last : Option SemanticToken) (ts : List SemanticToken) : Prop where
  sorted : ts.Pairwise fun t u => t.le u = true
  le : ∀ l ∈ last, ∀ t ∈ ts, l.le t = true

theorem Ahead.of_cons (h : Ahead last (t :: ts)) : Ahead last ts :=
  ⟨h.sorted.of_cons, fun l hl u hu => h.le l hl u (List.mem_cons_of_mem t hu)⟩

theorem Ahead.some (h : Ahead last (t :: ts)) : Ahead (some t) ts := by
  refine ⟨h.sorted.of_cons, fun l hl u hu => ?_⟩
  obtain rfl := Option.some.inj hl
  exact List.rel_of_pairwise_cons h.sorted hu

/-- Each token that is kept starts behind the one that was kept before it. -/
theorem pairwise_firstAtStart (h : Ahead last ts) :
    (∀ l ∈ last, ∀ t ∈ firstAtStart last ts, l.start < t.start) ∧
      (firstAtStart last ts).Pairwise fun t u => t.start < u.start := by
  induction ts generalizing last with
  | nil => exact ⟨fun l _ t ht => absurd ht List.not_mem_nil, List.Pairwise.nil⟩
  | cons t ts ih =>
    rw [firstAtStart_cons]
    split
    · exact ih h.of_cons
    · next hfresh =>
      obtain ⟨hlast, hsorted⟩ := ih h.some
      refine ⟨fun l hl u hu => ?_, List.pairwise_cons.2 ⟨hlast t rfl, hsorted⟩⟩
      have hlt : l.start < t.start :=
        lt_of_le_of_ne (start_le_of_le (h.le l hl t List.mem_cons_self))
          fun heq => hfresh ⟨l, hl, heq.symm⟩
      rcases List.mem_cons.1 hu with rfl | hu
      · exact hlt
      · exact hlt.trans (hlast t rfl u hu)

/-- Where a token starts, one is kept that comes no later, unless one was kept there before. -/
theorem exists_mem_firstAtStart (h : ts.Pairwise fun t u => t.le u = true) (ht : t ∈ ts) :
    (∃ l ∈ last, l.start = t.start) ∨
      ∃ u ∈ firstAtStart last ts, u.start = t.start ∧ u.le t = true := by
  induction ts generalizing last with
  | nil => cases ht
  | cons first ts ih =>
    rw [firstAtStart_cons]
    split
    · next hskip =>
      obtain ⟨l, hl, hstart⟩ := hskip
      rcases List.mem_cons.1 ht with rfl | ht
      · exact .inl ⟨l, hl, hstart.symm⟩
      · exact ih h.of_cons ht
    · rcases List.mem_cons.1 ht with rfl | ht
      · exact .inr ⟨t, List.mem_cons_self, rfl, le_refl t⟩
      · right
        rcases @ih (some first) h.of_cons ht with ⟨l, hl, hstart⟩ | ⟨u, hu, hstart, hle⟩
        · obtain rfl := Option.some.inj hl
          exact ⟨first, List.mem_cons_self, hstart, List.rel_of_pairwise_cons h ht⟩
        · exact ⟨u, List.mem_cons_of_mem _ hu, hstart, hle⟩

/-! ### Merging -/

/-- Merged tokens come in strict order. -/
theorem pairwise_start_merge (ts : List SemanticToken) :
    (merge ts).Pairwise fun t u => t.start < u.start :=
  (pairwise_firstAtStart ⟨pairwise_mergeSort_le ts, fun _ hl => absurd hl (Option.not_mem_none _)⟩).2

theorem mem_of_mem_merge (h : t ∈ merge ts) : t ∈ ts :=
  (List.mergeSort_perm ts le).mem_iff.1 ((sublist_firstAtStart none _).subset h)

/-- Where a token starts, one is merged that comes no later. -/
theorem exists_mem_merge (h : t ∈ ts) : ∃ u ∈ merge ts, u.start = t.start ∧ u.le t = true :=
  (exists_mem_firstAtStart (pairwise_mergeSort_le ts)
    ((List.mergeSort_perm ts le).mem_iff.2 h)).resolve_left fun ⟨_, hl, _⟩ => nomatch hl

/-- No two of the merged tokens start at one place. -/
theorem eq_of_mem_merge (ht : t ∈ merge ts) (hu : u ∈ merge ts) (h : t.start = u.start) :
    t = u := by
  have hnodup : ((merge ts).map start).Nodup :=
    List.pairwise_map.2 ((pairwise_start_merge ts).imp fun hlt => hlt.ne)
  exact List.inj_on_of_nodup_map hnodup ht hu h

/-- A token is merged if and only if it is the least of those that start where it does. -/
theorem mem_merge_iff :
    t ∈ merge ts ↔ t ∈ ts ∧ ∀ u ∈ ts, u.start = t.start → t.le u = true := by
  constructor
  · intro ht
    refine ⟨mem_of_mem_merge ht, fun u hu hstart => ?_⟩
    obtain ⟨v, hv, hvstart, hle⟩ := exists_mem_merge hu
    rwa [eq_of_mem_merge ht hv (hstart.symm.trans hvstart.symm)]
  · rintro ⟨ht, hleast⟩
    obtain ⟨u, hu, hstart, hle⟩ := exists_mem_merge ht
    rwa [le_antisymm (hleast u (mem_of_mem_merge hu) hstart) hle]

/-- Only what there is to merge matters, not its order. -/
theorem merge_congr {ts' : List SemanticToken} (h : ∀ t, t ∈ ts ↔ t ∈ ts') :
    merge ts = merge ts' := by
  have : Std.Irrefl fun t u : SemanticToken => t.start < u.start := ⟨fun t => lt_irrefl t.start⟩
  have : Std.Antisymm fun t u : SemanticToken => t.start < u.start :=
    ⟨fun t u htu hut => absurd hut htu.asymm⟩
  refine (pairwise_start_merge ts).eq_of_mem_iff (pairwise_start_merge ts') fun t => ?_
  rw [mem_merge_iff, mem_merge_iff, h]
  simp only [h]

end SemanticToken

theorem Outcome.value?_eq_some_iff {α : Type} {o : Outcome α} {x : α} :
    o.value? = some x ↔ o = .value x := by
  cases o <;> simp [Outcome.value?]

namespace Dispatcher

variable [Python.Recovery] {σ α : Type}

/-! ### What there is to merge -/

/-- An analyzer that does not fail answers with the given thing among others. -/
def Answered (as : List (Analyzer σ)) (ask : Analyzer σ → Outcome (List α)) (x : α) : Prop :=
  ∃ a ∈ as, ∃ answer, ask a = .value answer ∧ x ∈ answer

theorem mem_collect_iff (d : Dispatcher σ) (ask : Analyzer σ → Outcome (List α)) (x : α) :
    x ∈ (d.collect ask).result ↔ Answered d.analyzers ask x := by
  rw [collect, answers_eq]
  simp only [List.mem_flatten, List.mem_filterMap, Outcome.value?_eq_some_iff, Answered]
  constructor
  · rintro ⟨answer, ⟨a, ha, hanswer⟩, hx⟩
    exact ⟨a, ha, answer, hanswer, hx⟩
  · rintro ⟨a, ha, answer, hanswer, hx⟩
    exact ⟨answer, ⟨a, ha, hanswer⟩, hx⟩

/-- Analyzers with different ids are all registered, in their order. -/
theorem analyzers_registered (as : List (Analyzer σ)) (h : (as.map (·.id)).Nodup) :
    (registered as).analyzers = as := by
  induction as using List.reverseRecOn with
  | nil => rfl
  | append_singleton as a ih =>
    rw [List.map_append, List.nodup_append] at h
    have hnew : a.id ∉ (registered as).ids := fun hin =>
      h.2.2 a.id (mem_ids_registered.1 hin) a.id (List.mem_singleton_self _) rfl
    rw [registered_concat, analyzers_attempt, if_neg hnew, ih h.1]

/-- **Merged tokens are canonical.**  The tokens of a document come in strict order of their starts.
There is one wherever some analyzer that does not fail has one, and it is the least of those that
start there, by length, type and modifiers.  In whatever order the same analyzers are registered,
the tokens are the same. -/
theorem tokens_registered (d : Dispatcher σ) (state : σ) (document : Document) :
    let tokens := (d.tokens state document).result
    let answered := Answered d.analyzers (·.tokens state document)
    tokens.Pairwise (fun t u => t.line < u.line ∨ t.line = u.line ∧ t.character < u.character) ∧
    (∀ line character, (∃ t ∈ tokens, t.line = line ∧ t.character = character) ↔
      ∃ t, answered t ∧ t.line = line ∧ t.character = character) ∧
    (∀ t, t ∈ tokens ↔
      answered t ∧ ∀ u, answered u → u.sameStart t = true → t.le u = true) ∧
    ∀ as, as.Perm d.analyzers → ((registered as).tokens state document).result = tokens := by
  intro tokens answered
  have hmem : ∀ t, t ∈ (d.collect (·.tokens state document)).result ↔ answered t :=
    d.mem_collect_iff _
  refine ⟨?_, fun line character => ?_, fun t => ?_, fun as has => ?_⟩
  · refine (SemanticToken.pairwise_start_merge _).imp fun h => ?_
    exact Prod.Lex.toLex_lt_toLex.1 h
  · constructor
    · rintro ⟨t, ht, hplace⟩
      exact ⟨t, (hmem t).1 (SemanticToken.mem_of_mem_merge ht), hplace⟩
    · rintro ⟨t, ht, rfl, rfl⟩
      obtain ⟨u, hu, hstart, -⟩ := SemanticToken.exists_mem_merge ((hmem t).2 ht)
      exact ⟨u, hu, Prod.mk.inj (toLex.injective hstart)⟩
  · refine SemanticToken.mem_merge_iff.trans ?_
    simp only [hmem, SemanticToken.sameStart_iff]
  · refine SemanticToken.merge_congr fun t => ?_
    rw [mem_collect_iff, mem_collect_iff, Answered, Answered]
    rw [analyzers_registered as ((has.map _).nodup_iff.2 d.ids_nodup)]
    simp only [has.mem_iff]

end Dispatcher

namespace Dispatcher

/-- An analyzer that says the same tokens of every document, if it does not fail. -/
def marker (id : String) (tokens : Outcome (List SemanticToken)) : Analyzer Unit where
  id
  analyze _ _ state := .value state
  tokens _ _ := tokens

/-- Two analyzers agree on where a token starts, not on its length, and a third one fails. -/
def markers : Dispatcher Unit where
  analyzers := [marker "short" (.value [⟨0, 2, 1, "variable", []⟩, ⟨0, 4, 3, "variable", []⟩]),
    marker "failing" .crash, marker "long" (.value [⟨0, 4, 9, "variable", []⟩])]
  ids_nodup := by decide

/-- The shorter token is taken, also when its analyzer is registered last. -/
theorem tokens_markers :
    ((registered markers.analyzers.reverse).tokens () (.ofText "u:a" [] 1)).result =
      [⟨0, 2, 1, "variable", []⟩, ⟨0, 4, 3, "variable", []⟩] := by
  rw [(tokens_registered markers () (.ofText "u:a" [] 1)).2.2.2 _ (List.reverse_perm _)]
  -- in the order of `markers` the tokens are sorted already
  show SemanticToken.merge [⟨0, 2, 1, "variable", []⟩, ⟨0, 4, 3, "variable", []⟩,
    ⟨0, 4, 9, "variable", []⟩] = _
  rw [SemanticToken.merge, List.mergeSort_of_pairwise (by decide)]
  rfl

end Dispatcher

end RouteScript
