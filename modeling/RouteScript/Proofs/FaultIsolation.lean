import Mathlib.Data.List.Induction
import RouteScript.Analysis.Dispatcher

/-!
# Faults of analyzers

Whatever becomes of the call of an analyzer, the others are called as if it had not failed.

* `update_cons`: one turn of a round.  From it follows what a whole round comes to
  (`callsAll_update`, `areFailed_update`): who is called, on which state, and who is told to have
  failed.
* `answers_eq`: what is collected from all; those that fail might as well not be there
  (`isolates_collect`).
* `hearsFirst_firstAnswer`: who is heard where one answer is enough, and who is not called.
* `faultIsolation_registered`: these together, after any registrations.
-/

namespace RouteScript

/-! ### Semantic tokens -/

namespace SemanticToken

theorem compareWords_eq (ws vs : List String) : compareWords ws vs = compare ws vs := by
  induction ws generalizing vs with
  | nil => cases vs <;> rfl
  | cons w ws ih =>
    cases vs with
    | nil => rfl
    | cons v vs => rw [compareWords, ih, List.compare_eq_compareLex, List.compareLex_cons_cons]

theorem order_eq : order = compareLex (compareOn line) (compareLex (compareOn character)
    (compareLex (compareOn length) (compareLex (compareOn type) (compareOn modifiers)))) := by
  funext a b
  rw [order, compareWords_eq]
  rfl

instance : Std.TransCmp order := order_eq ▸ inferInstance

theorem le_iff {a b : SemanticToken} : a.le b = true ↔ (a.order b).isLE = true := by
  rw [le, bne_iff_ne, Ordering.isLE_iff_ne_gt, ne_eq]

theorem sublist_firstAtStart (last : Option SemanticToken) (ts : List SemanticToken) :
    (firstAtStart last ts).Sublist ts := by
  induction ts generalizing last with
  | nil => exact .slnil
  | cons t ts ih =>
    rw [firstAtStart]
    split
    · exact (ih last).cons t
    · exact (ih (some t)).cons_cons t

theorem le_trans {t u v : SemanticToken} (htu : t.le u = true) (huv : u.le v = true) :
    t.le v = true := by
  rw [le_iff] at htu huv ⊢
  exact Std.TransCmp.isLE_trans htu huv

theorem le_total (t u : SemanticToken) : t.le u = true ∨ u.le t = true := by
  rw [le_iff, le_iff]
  cases h : t.order u with
  | gt => exact .inr (by rw [Std.OrientedCmp.lt_of_gt h]; rfl)
  | _ => exact .inl rfl

theorem pairwise_mergeSort_le (ts : List SemanticToken) :
    (ts.mergeSort le).Pairwise fun t u => t.le u = true := by
  refine List.pairwise_mergeSort ?_ ?_ ts
  · exact fun _ _ _ => le_trans
  · exact fun t u => Bool.or_eq_true _ _ ▸ le_total t u

/-- Merged tokens come in order. -/
theorem pairwise_merge (ts : List SemanticToken) :
    (merge ts).Pairwise fun t u => t.le u = true :=
  (pairwise_mergeSort_le ts).sublist (sublist_firstAtStart none _)

end SemanticToken

namespace Dispatcher

variable [Python.Recovery] {σ α : Type} {d : Dispatcher σ} {as : List (Analyzer σ)} {a : Analyzer σ}

/-! ### Registration -/

/-- The dispatcher after an attempt to register an analyzer.  One that is refused changes nothing. -/
def attempt (d : Dispatcher σ) (a : Analyzer σ) : Dispatcher σ :=
  match d.register a with
  | .ok d' => d'
  | .error _ => d

/-- The dispatcher after attempts to register analyzers, one after the other. -/
def registered (as : List (Analyzer σ)) : Dispatcher σ := as.foldl attempt empty

theorem register_eq_error_iff {e : RegistrationError} :
    d.register a = .error e ↔ e = .duplicate a.id ∧ a.id ∈ d.ids := by
  rw [register]
  split <;> simp [*, eq_comm]

theorem analyzers_attempt (d : Dispatcher σ) (a : Analyzer σ) :
    (d.attempt a).analyzers =
      if a.id ∈ d.ids then d.analyzers else d.analyzers ++ [a] := by
  rw [attempt, register]
  split_ifs <;> rfl

theorem registered_concat (as : List (Analyzer σ)) (a : Analyzer σ) :
    registered (as ++ [a]) = (registered as).attempt a := by
  rw [registered, List.foldl_append, registered, List.foldl_cons, List.foldl_nil]

/-- Some analyzer is registered under every id that was tried. -/
theorem mem_ids_registered {id : String} :
    id ∈ (registered as).ids ↔ id ∈ as.map (·.id) := by
  induction as using List.reverseRecOn with
  | nil => rfl
  | append_singleton as a ih =>
    rw [registered_concat, ids, analyzers_attempt]
    split
    next h =>
      rw [List.map_append, List.mem_append, ← ih, List.map_singleton, List.mem_singleton]
      exact ⟨.inl, fun hid => hid.elim (fun hid => hid) fun hid => hid ▸ h⟩
    next h =>
      rw [List.map_append, List.mem_append, List.map_append, List.mem_append, ← ih]
      rfl

/-! ### Rounds -/

section Round

variable {turn : Analyzer σ → σ → Outcome σ} {partly : Analyzer σ → σ → σ} {state : σ}

/-- The state that an analyzer leaves behind. -/
def left (turn : Analyzer σ → σ → Outcome σ) (partly : Analyzer σ → σ → σ) (state : σ)
    (a : Analyzer σ) : σ :=
  (turn a state).value?.getD (partly a state)

/-- All analyzers are called, once and in their order, each on the state that those before it have
left. -/
structure CallsAll (turn : Analyzer σ → σ → Outcome σ) (partly : Analyzer σ → σ → σ)
    (as : List (Analyzer σ)) (state final : σ) (called : List String) : Prop where
  final_eq : final = as.foldl (left turn partly) state
  called_eq : called = as.map (·.id)

/-- The ids are those of the analyzers that fail when their turn comes, in the order of their
turns. -/
structure AreFailed (turn : Analyzer σ → σ → Outcome σ) (partly : Analyzer σ → σ → σ)
    (as : List (Analyzer σ)) (state : σ) (failed : List String) : Prop where
  sublist : failed.Sublist (as.map (·.id))
  mem_iff : ∀ before a after, as = before ++ a :: after →
    (a.id ∈ failed ↔ (turn a (before.foldl (left turn partly) state)).value? = none)

theorem update_cons : update turn partly (a :: as) state =
    ((update turn partly as (left turn partly state a)).1,
      ⟨if (turn a state).value? = none then
          a.id :: (update turn partly as (left turn partly state a)).2.result
        else (update turn partly as (left turn partly state a)).2.result,
        a.id :: (update turn partly as (left turn partly state a)).2.called⟩) := by
  rw [update, left]
  cases (turn a state).value? <;> rfl

theorem callsAll_update (as : List (Analyzer σ)) (state : σ) :
    CallsAll turn partly as state (update turn partly as state).1
      (update turn partly as state).2.called := by
  induction as generalizing state with
  | nil => exact ⟨rfl, rfl⟩
  | cons a as ih =>
    obtain ⟨hfinal, hcalled⟩ := ih (left turn partly state a)
    rw [update_cons]
    exact ⟨hfinal, congrArg (a.id :: ·) hcalled⟩

theorem sublist_update (as : List (Analyzer σ)) (state : σ) :
    (update turn partly as state).2.result.Sublist (as.map (·.id)) := by
  induction as generalizing state with
  | nil => exact .slnil
  | cons a as ih =>
    rw [update_cons]
    simp only
    split
    · exact (ih _).cons_cons a.id
    · exact (ih _).cons a.id

/-- Since no id occurs twice, an analyzer is told to have failed just if it did so itself. -/
theorem mem_update_iff {before after : List (Analyzer σ)}
    (h : ((before ++ a :: after).map (·.id)).Nodup) :
    a.id ∈ (update turn partly (before ++ a :: after) state).2.result ↔
      (turn a (before.foldl (left turn partly) state)).value? = none := by
  induction before generalizing state with
  | nil =>
    have hout : a.id ∉ (update turn partly after (left turn partly state a)).2.result := fun hin =>
      (List.nodup_cons.1 h).1 ((sublist_update after _).subset hin)
    rw [List.nil_append, update_cons, List.foldl_nil]
    split
    next hfails => exact iff_of_true List.mem_cons_self hfails
    next hfails => exact iff_of_false hout hfails
  | cons b before ih =>
    obtain ⟨hb, hrest⟩ := List.nodup_cons.1 h
    have hne : a.id ≠ b.id := fun hab => hb (List.mem_map.2 ⟨a, by simp, hab⟩)
    rw [List.cons_append, update_cons, List.foldl_cons, ← ih hrest]
    split <;> simp [hne]

theorem areFailed_update (h : (as.map (·.id)).Nodup) (state : σ) :
    AreFailed turn partly as state (update turn partly as state).2.result where
  sublist := sublist_update as state
  mem_iff := by
    rintro before a after rfl
    exact mem_update_iff h

end Round

/-! ### Questions -/

/-- The dispatcher with only some of the analyzers. -/
def keeping (d : Dispatcher σ) (keep : Analyzer σ → Bool) : Dispatcher σ where
  analyzers := d.analyzers.filter keep
  ids_nodup := d.ids_nodup.sublist (List.filter_sublist.map _)

/-- All analyzers are called for a reply, once and in their order.  What is replied is what those that
do not fail say, one behind the other and then arranged: just what a dispatcher would reply that has
only them. -/
structure Isolates (d : Dispatcher σ) (ask : Analyzer σ → Outcome (List α))
    (arrange : List α → List α) (reply : Dispatcher σ → Reply (List α)) : Prop where
  called : (reply d).called = d.ids
  result : (reply d).result = arrange (d.analyzers.filterMap fun a => (ask a).value?).flatten
  keeping : (reply d).result = (reply (d.keeping fun a => (ask a).value?.isSome)).result

theorem answers_eq (ask : Analyzer σ → Outcome (List α)) (as : List (Analyzer σ)) :
    answers ask as = ⟨(as.filterMap fun a => (ask a).value?).flatten, as.map (·.id)⟩ := by
  induction as with
  | nil => rfl
  | cons a as ih =>
    rw [answers, ih, List.filterMap_cons]
    cases (ask a).value? <;> rfl

theorem isolates_collect (d : Dispatcher σ) (ask : Analyzer σ → Outcome (List α))
    (arrange : List α → List α) :
    d.Isolates ask arrange fun d => ⟨arrange (d.collect ask).result, (d.collect ask).called⟩ where
  called := by rw [collect, answers_eq]; rfl
  result := by rw [collect, answers_eq]
  keeping := by
    have hkeep : (d.analyzers.filter fun a => (ask a).value?.isSome).filterMap
        (fun a => (ask a).value?) = d.analyzers.filterMap fun a => (ask a).value? := by
      rw [List.filterMap_filter]
      congr 1
      funext a
      cases (ask a).value? <;> rfl
    simp only [collect, answers_eq, Dispatcher.keeping, hkeep]

/-- The first of the analyzers that answers is heard, and nobody is called after it; where no one
answers, all have been called. -/
def HearsFirst (as : List (Analyzer σ)) (ask : Analyzer σ → Outcome (Option α))
    (reply : Reply (Option α)) : Prop :=
  (∃ before a after answer, as = before ++ a :: after ∧
    (∀ b ∈ before, ∀ other, ask b ≠ .value (some other)) ∧ ask a = .value (some answer) ∧
      reply = ⟨some answer, before.map (·.id) ++ [a.id]⟩) ∨
  (∀ b ∈ as, ∀ other, ask b ≠ .value (some other)) ∧ reply = ⟨none, as.map (·.id)⟩

theorem hearsFirst_firstAnswer (as : List (Analyzer σ)) (ask : Analyzer σ → Outcome (Option α)) :
    HearsFirst as ask (firstAnswer ask as) := by
  induction as with
  | nil => exact .inr ⟨List.forall_mem_nil _, rfl⟩
  | cons a as ih =>
    by_cases h : ∃ answer, ask a = .value (some answer)
    · obtain ⟨answer, h⟩ := h
      refine .inl ⟨[], a, as, answer, rfl, List.forall_mem_nil _, h, ?_⟩
      rw [firstAnswer, h]
      rfl
    · have hsilent : ∀ other, ask a ≠ .value (some other) := fun other ho => h ⟨other, ho⟩
      have heq : firstAnswer ask (a :: as) =
          ⟨(firstAnswer ask as).result, a.id :: (firstAnswer ask as).called⟩ := by
        rw [firstAnswer]
        split
        next answer hanswer => exact absurd hanswer (hsilent answer)
        next => rfl
      rcases ih with ⟨before, b, after, answer, rfl, hbefore, hb, hreply⟩ | ⟨hall, hreply⟩
      · refine .inl ⟨a :: before, b, after, answer, rfl, ?_, hb, by rw [heq, hreply]; rfl⟩
        exact List.forall_mem_cons.2 ⟨hsilent, hbefore⟩
      · refine .inr ⟨List.forall_mem_cons.2 ⟨hsilent, hall⟩, by rw [heq, hreply]; rfl⟩

/-- **Faults stay with the analyzer.**  After any attempts to register analyzers, no id is registered
twice, and an analyzer is refused just if its id was tried before; then nothing changes, and otherwise
it comes last.  When a document changes or goes, all analyzers are called once and in this order,
whichever of them fail, and just those that fail are told.  All are called for findings, definitions,
references, completions and tokens; the answer is the one that would be given without those that
fail.  The first that has something to say about a place is heard, and nobody is called after it. -/
theorem faultIsolation_registered (as : List (Analyzer σ)) :
    ((registered as).ids.Nodup ∧
      (∀ a e, (registered as).register a = .error e ↔
        e = .duplicate a.id ∧ a.id ∈ as.map (·.id)) ∧
      ∀ a, (registered (as ++ [a])).analyzers =
        if a.id ∈ as.map (·.id) then (registered as).analyzers
        else (registered as).analyzers ++ [a]) ∧
    (∀ view document state,
      CallsAll (·.analyze view document) (·.analyzePartly view document) (registered as).analyzers
        state ((registered as).analyze view document state).1
        ((registered as).analyze view document state).2.called ∧
      AreFailed (·.analyze view document) (·.analyzePartly view document) (registered as).analyzers
        state ((registered as).analyze view document state).2.result) ∧
    (∀ view uri state,
      CallsAll (·.removed view uri) (·.removedPartly view uri) (registered as).analyzers
        state ((registered as).removed view uri state).1
        ((registered as).removed view uri state).2.called) ∧
    (∀ state document,
      (registered as).Isolates (·.diagnostics state document) id (·.diagnostics state document) ∧
      (registered as).Isolates (·.tokens state document) SemanticToken.merge
        (·.tokens state document) ∧
      ((registered as).tokens state document).result.Pairwise fun t u => t.le u = true) ∧
    ∀ state q,
      (registered as).Isolates (·.definitions state q) id (·.definitions state q) ∧
      (registered as).Isolates (·.references state q) id (·.references state q) ∧
      (registered as).Isolates (·.completions state q) id (·.completions state q) ∧
      HearsFirst (registered as).analyzers (·.hover state q) ((registered as).hover state q) := by
  refine ⟨⟨(registered as).ids_nodup, fun a e => ?_, fun a => ?_⟩, fun view document state => ?_,
    fun view uri state => callsAll_update _ state, fun state document => ?_, fun state q => ?_⟩
  · rw [register_eq_error_iff, mem_ids_registered]
  · simp only [registered_concat, analyzers_attempt, mem_ids_registered]
  · exact ⟨callsAll_update _ state, areFailed_update (registered as).ids_nodup state⟩
  · exact ⟨isolates_collect _ _ id, isolates_collect _ _ _, SemanticToken.pairwise_merge _⟩
  · exact ⟨isolates_collect _ _ id, isolates_collect _ _ id, isolates_collect _ _ id,
      hearsFirst_firstAnswer _ _⟩

end Dispatcher

namespace Dispatcher

/-- An analyzer that writes itself down when a document changes and has something to tell. -/
def recorder (id : String) : Analyzer (List String) where
  id
  analyze _ _ log := .value (log ++ [id])
  diagnostics _ _ := .value [⟨.origin, none, none, none, id⟩]
  hover _ _ := .value (some ⟨id, .origin⟩)

/-- An analyzer that writes itself down and crashes then; it never has an answer. -/
def crasher : Analyzer (List String) where
  id := "crasher"
  analyze _ _ _ := .crash
  analyzePartly _ _ log := log ++ ["crasher"]
  diagnostics _ _ := .error
  hover _ _ := .crash

/-- One that crashes is registered before two others, the first of them twice. -/
def crashing : List (Analyzer (List String)) :=
  [crasher, recorder "first", recorder "first", recorder "last"]

/-- What comes of a change of an empty document. -/
def crashingReply : List String × Reply (List String) :=
  (registered crashing).analyze ⟨.empty, []⟩ (.ofText "u:a" [] 1) []

/-- All three have written themselves down.  The one that crashed is told to have failed, the last is
not.  The findings are those of the other two, and the last is not asked about a place. -/
theorem faultIsolation_crashing :
    (registered crashing).ids = ["crasher", "first", "last"] ∧
      crashingReply.1 = ["crasher", "first", "last"] ∧
      "crasher" ∈ crashingReply.2.result ∧ "last" ∉ crashingReply.2.result ∧
      ((registered crashing).diagnostics [] (.ofText "u:a" [] 1)).result.map (·.message) =
        ["first", "last"] ∧
      ((registered crashing).hover [] ⟨.ofText "u:a" [] 1, 0⟩).called = ["crasher", "first"] := by
  have hd : (registered crashing).analyzers = [crasher, recorder "first", recorder "last"] := rfl
  obtain ⟨-, hanalyze, -, hask, -⟩ := faultIsolation_registered crashing
  obtain ⟨hcalls, hfailed⟩ := hanalyze ⟨.empty, []⟩ (.ofText "u:a" [] 1) []
  refine ⟨rfl, hcalls.final_eq, ?_, fun hlast => ?_, ?_, rfl⟩
  · exact (hfailed.mem_iff [] crasher _ hd).2 rfl
  · exact nomatch (hfailed.mem_iff [crasher, recorder "first"] (recorder "last") [] hd).1 hlast
  · rw [(hask [] (.ofText "u:a" [] 1)).1.result]
    rfl

end Dispatcher

end RouteScript
