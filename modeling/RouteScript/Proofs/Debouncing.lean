import RouteScript.Proofs.ClosedDocuments

/-!
# When diagnostics are due

A document awaits its diagnostics from when it was scheduled last until it is cancelled or handed out.
The deadlines that are kept say just this (`get?_deadlines_run`), whatever came before and whatever
order the times come in.

* `get?_deadlines_apply`: what an operation does to a deadline.
* `awaits_concat`: how a document's waiting moves on with each operation.
* `mem_takeDue_run`, `next?_eq_some_iff`, `takeDue_ne_nil_iff`: what is handed out and when.
* `isPending_step`, `isEditorOpen_of_isPending`: in a session, only documents of the editor wait.
* `publishing_run`: these together.
-/

namespace RouteScript

namespace Debounce

/-- Something that is done to the deadlines. -/
inductive Operation where
  | schedule (uri : String) (now : Nat)
  | cancel (uri : String)
  | takeDue (now : Nat)

/-- The deadlines after an operation. -/
def apply (d : Debounce) : Operation → Debounce
  | .schedule uri now => d.schedule uri now
  | .cancel uri => d.cancel uri
  | .takeDue now => (d.takeDue now).2

/-- The deadlines after a sequence of operations. -/
def run (delay : Nat) (ops : List Operation) : Debounce := ops.foldl apply (start delay)

/-- The operation cancels the document or hands it out. -/
def Releases (d : Debounce) (uri : String) : Operation → Prop
  | .schedule .. => False
  | .cancel uri' => uri' = uri
  | .takeDue now => uri ∈ (d.takeDue now).1

/-- The document was scheduled last at the given time.  No operation since then has cancelled it or
handed it out. -/
def Awaits (delay : Nat) (ops : List Operation) (uri : String) (time : Nat) : Prop :=
  ∃ before after, ops = before ++ .schedule uri time :: after ∧
    (∀ now, .schedule uri now ∉ after) ∧
    ∀ between op rest, after = between ++ op :: rest →
      ¬ (run delay (before ++ .schedule uri time :: between)).Releases uri op

variable {d : Debounce} {delay now time deadline : Nat} {uri : String} {ops : List Operation}

/-! ### Deadlines -/

theorem isPending_iff : d.isPending uri = true ↔ ∃ deadline, d.deadlines.get? uri = some deadline :=
  Option.isSome_iff_exists

theorem isPending_schedule {uri' : String} :
    (d.schedule uri' now).isPending uri = true ↔ uri = uri' ∨ d.isPending uri = true := by
  simp [isPending, schedule]

theorem isPending_cancel {uri' : String} :
    (d.cancel uri').isPending uri = true ↔ uri ≠ uri' ∧ d.isPending uri = true := by
  simp [isPending, cancel]

theorem isPending_of_takeDue (h : (d.takeDue now).2.isPending uri = true) :
    d.isPending uri = true := by
  obtain ⟨deadline, h⟩ := isPending_iff.1 h
  rw [takeDue, Table.get?_filter, Option.filter_eq_some_iff] at h
  exact isPending_iff.2 ⟨deadline, h.1⟩

/-- The documents that are handed out are those whose deadline has come. -/
theorem mem_takeDue_iff :
    uri ∈ (d.takeDue now).1 ↔ ∃ deadline, d.deadlines.get? uri = some deadline ∧ deadline ≤ now := by
  refine Table.mem_keys_iff.trans ?_
  rw [Table.contains_eq_isSome, Table.get?_filter, Option.isSome_iff_exists]
  simp only [Option.filter_eq_some_iff, decide_eq_true_iff]

/-- They come in ascending order, none of them twice. -/
theorem pairwise_takeDue (d : Debounce) (now : Nat) : (d.takeDue now).1.Pairwise (· < ·) :=
  List.pairwise_map.2 ((d.deadlines.filter _).ascending.imp compareOfLessAndEq_eq_lt.1)

theorem next?_eq_some_iff : d.next? = some deadline ↔
    (∃ uri, d.deadlines.get? uri = some deadline) ∧
      ∀ uri deadline', d.deadlines.get? uri = some deadline' → deadline ≤ deadline' := by
  rw [next?, List.min?_eq_some_iff, Table.mem_values_iff]
  simp only [Table.mem_values_iff, forall_exists_index]
  exact and_congr_right fun _ => forall_comm

theorem next?_eq_none_iff : d.next? = none ↔ ∀ uri, d.isPending uri = false := by
  rw [next?, List.min?_eq_none_iff, List.eq_nil_iff_forall_not_mem]
  simp only [Table.mem_values_iff, not_exists, ← Bool.not_eq_true, isPending_iff]
  exact forall_comm

/-- Something is handed out if and only if the next deadline has come. -/
theorem takeDue_ne_nil_iff :
    (d.takeDue now).1 ≠ [] ↔ ∃ deadline, d.next? = some deadline ∧ deadline ≤ now := by
  constructor
  · intro h
    obtain ⟨uri, huri⟩ := List.exists_mem_of_ne_nil _ h
    obtain ⟨deadline, hget, hle⟩ := mem_takeDue_iff.1 huri
    cases hnext : d.next? with
    | none =>
      have := next?_eq_none_iff.1 hnext uri
      rw [isPending_iff.2 ⟨deadline, hget⟩] at this
      cases this
    | some first => exact ⟨first, rfl, ((next?_eq_some_iff.1 hnext).2 uri deadline hget).trans hle⟩
  · rintro ⟨deadline, hnext, hle⟩
    obtain ⟨uri, hget⟩ := (next?_eq_some_iff.1 hnext).1
    exact List.ne_nil_of_mem (mem_takeDue_iff.2 ⟨deadline, hget, hle⟩)

/-! ### Histories -/

theorem delay_run (delay : Nat) (ops : List Operation) : (run delay ops).delay = delay := by
  induction ops using List.reverseRecOn with
  | nil => rfl
  | append_singleton ops op ih =>
    rw [run, List.foldl_append]
    cases op <;> exact ih

theorem run_concat (delay : Nat) (ops : List Operation) (op : Operation) :
    run delay (ops ++ [op]) = (run delay ops).apply op := List.foldl_append ..

/-- After an operation a document has the deadline that it was given just now, or the one it had,
unless the operation released it. -/
theorem get?_deadlines_apply {op : Operation} : (d.apply op).deadlines.get? uri = some deadline ↔
    (∃ now, op = .schedule uri now ∧ deadline = now + d.delay) ∨
      (d.deadlines.get? uri = some deadline ∧ (∀ now, op ≠ .schedule uri now) ∧
        ¬ d.Releases uri op) := by
  cases op with
  | schedule uri' now =>
    show (d.deadlines.insert uri' (now + d.delay)).get? uri = some deadline ↔ _
    rw [Table.get?_insert]
    by_cases hu : uri = uri'
    · subst hu
      simp [eq_comm]
    · simp [hu, Ne.symm hu, Releases]
  | cancel uri' =>
    show (d.deadlines.erase uri').get? uri = some deadline ↔ _
    rw [Table.get?_erase]
    by_cases hu : uri = uri'
    · simp [hu, Releases]
    · simp [hu, Ne.symm hu, Releases]
  | takeDue now =>
    show (d.deadlines.filter fun _ deadline => now < deadline).get? uri = some deadline ↔ _
    rw [Table.get?_filter, Option.filter_eq_some_iff]
    simp only [Releases, mem_takeDue_iff, decide_eq_true_iff, reduceCtorEq, false_and, exists_false,
      false_or, ne_eq, not_false_iff, forall_const, true_and]
    refine and_congr_right fun hget => ?_
    simp [hget]

/-- A document awaits its diagnostics since the operation itself, or it did before. -/
theorem awaits_concat {op : Operation} : Awaits delay (ops ++ [op]) uri time ↔
    op = .schedule uri time ∨ (Awaits delay ops uri time ∧ (∀ now, op ≠ .schedule uri now) ∧
      ¬ (run delay ops).Releases uri op) := by
  constructor
  · rintro ⟨before, after, heq, hlast, hkept⟩
    rcases List.eq_nil_or_concat' after with rfl | ⟨after, op', rfl⟩
    · exact .inl (List.singleton_inj.1 (List.append_inj' heq rfl).2)
    · rw [← List.cons_append, ← List.append_assoc] at heq
      obtain ⟨rfl, hop⟩ := List.append_inj' heq rfl
      obtain rfl := List.singleton_inj.1 hop
      refine .inr ⟨⟨before, after, rfl, fun now h => ?_, fun between op' rest h => ?_⟩, ?_, ?_⟩
      · exact hlast now (List.mem_append_left _ h)
      · exact hkept between op' (rest ++ [op]) (by rw [h, List.append_assoc, List.cons_append])
      · rintro now rfl
        exact hlast now (List.mem_append_right _ (List.mem_singleton_self _))
      · exact hkept after op [] rfl
  · rintro (rfl | ⟨⟨before, after, rfl, hlast, hkept⟩, hop, hreleased⟩)
    · refine ⟨ops, [], rfl, fun now h => ?_, fun between op rest h => ?_⟩
      · cases h
      · simp at h
    · refine ⟨before, after ++ [op], List.append_assoc .., fun now h => ?_,
        fun between op' rest h => ?_⟩
      · rcases List.mem_append.1 h with h | h
        · exact hlast now h
        · exact hop now (List.mem_singleton.1 h).symm
      · -- the operation in question is the last one, or it came before that
        rcases List.eq_nil_or_concat' rest with rfl | ⟨rest, op'', rfl⟩
        · obtain ⟨rfl, hop'⟩ := List.append_inj' h rfl
          exact List.singleton_inj.1 hop' ▸ hreleased
        · rw [← List.cons_append, ← List.append_assoc] at h
          exact hkept between op' rest (List.append_inj' h rfl).1

theorem not_awaits_nil : ¬ Awaits delay [] uri time := by
  rintro ⟨before, after, h, -⟩
  simp at h

/-- The deadline of a document is the delay after the time since which it awaits its diagnostics. -/
theorem get?_deadlines_run : (run delay ops).deadlines.get? uri = some deadline ↔
    ∃ time, Awaits delay ops uri time ∧ deadline = time + delay := by
  induction ops using List.reverseRecOn with
  | nil =>
    constructor
    · intro h
      cases h
    · rintro ⟨time, h, -⟩
      exact absurd h not_awaits_nil
  | append_singleton ops op ih =>
    rw [run_concat, get?_deadlines_apply, ih, delay_run]
    simp only [awaits_concat]
    constructor
    · rintro (⟨now, rfl, rfl⟩ | ⟨⟨time, h, rfl⟩, hop⟩)
      · exact ⟨now, .inl rfl, rfl⟩
      · exact ⟨time, .inr ⟨h, hop⟩, rfl⟩
    · rintro ⟨time, rfl | ⟨h, hop⟩, rfl⟩
      · exact .inl ⟨time, rfl, rfl⟩
      · exact .inr ⟨⟨time, h, rfl⟩, hop⟩

theorem isPending_run : (run delay ops).isPending uri = true ↔ ∃ time, Awaits delay ops uri time := by
  simp only [isPending_iff, get?_deadlines_run]
  constructor
  · rintro ⟨_, time, h, -⟩
    exact ⟨time, h⟩
  · rintro ⟨time, h⟩
    exact ⟨_, time, h, rfl⟩

theorem mem_takeDue_run : uri ∈ ((run delay ops).takeDue now).1 ↔
    ∃ time, Awaits delay ops uri time ∧ time + delay ≤ now := by
  simp only [mem_takeDue_iff, get?_deadlines_run]
  constructor
  · rintro ⟨_, ⟨time, h, rfl⟩, hle⟩
    exact ⟨time, h, hle⟩
  · rintro ⟨time, h, hle⟩
    exact ⟨_, ⟨time, h, rfl⟩, hle⟩

theorem next?_run : (run delay ops).next? = some deadline ↔
    (∃ uri time, Awaits delay ops uri time ∧ deadline = time + delay) ∧
      ∀ uri time, Awaits delay ops uri time → deadline ≤ time + delay := by
  simp only [next?_eq_some_iff, get?_deadlines_run]
  refine and_congr_right fun _ => ⟨fun h uri time hw => h uri _ ⟨time, hw, rfl⟩, ?_⟩
  rintro h uri _ ⟨time, hw, rfl⟩
  exact h uri time hw

end Debounce

/-! ### Sessions -/

namespace Session

variable [Python.Recovery] {s : Session} {uri : String} {config : Config} {es : List Event}

/-- The editor sets deadlines when it opens or changes a document and cancels them when it closes
one; publishing takes out those that are due. -/
theorem debounce_step (s : Session) (e : Event) :
    (s.step e).debounce =
      match e with
      | .opened uri _ _ now => s.debounce.schedule (Uri.canonical uri) now
      | .changed uri _ _ now =>
        if s.store.contains (Uri.canonical uri) then s.debounce.schedule (Uri.canonical uri) now
        else s.debounce
      | .closed _ uri => s.debounce.cancel (Uri.canonical uri)
      | .published now => (s.debounce.takeDue now).2
      | _ => s.debounce := by
  cases e with
  | opened uri text version now => rfl
  | changed uri edits version now =>
    have hstored : s.store.contains (Uri.canonical uri) =
      (s.store.get? (Uri.canonical uri)).isSome := rfl
    cases hd : s.store.get? (Uri.canonical uri) with
    | none => simp only [step_changed_of_none edits version now hd, hstored, hd]; rfl
    | some d =>
      simp only [step, change, Store.change, Store.changeBy, hstored, hd]
      rfl
  | closed disk uri =>
    simp only [step, closeDocument]
    cases Uri.toPath? (Uri.canonical uri) with
    | none => exact (sameBooks_remove ..).debounce
    | some path =>
      simp only
      split
      · exact (sameBooks_load ..).debounce
      · exact (sameBooks_remove ..).debounce
  | file disk path event =>
    simp only [step, fileEvent]
    split
    · rfl
    · cases event with
      | created => exact (sameBooks_load ..).debounce
      | changed => exact (sameBooks_load ..).debounce
      | deleted => exact (sameBooks_remove ..).debounce
  | rootAdded root =>
    simp only [step, addRoot]
    split <;> rfl
  | rootsQueued disk => rfl
  | pathsQueued disk paths => rfl
  | batchRead disk => exact (sameBooks_indexFiles disk s.queue.nextBatch.1 (_, 0)).debounce
  | published now => rfl

/-- A document waits after an event because the editor opened or changed it just now, or because it
did before and was not closed. -/
theorem isPending_step {e : Event} (h : (s.step e).debounce.isPending uri = true) :
    (e.Opens uri ∨ e.batch? uri ≠ none) ∨ (s.debounce.isPending uri = true ∧ ¬ e.Closes uri) := by
  rw [debounce_step] at h
  cases e with
  | opened uri' text version now =>
    rcases Debounce.isPending_schedule.1 h with rfl | h
    · exact .inl (.inl rfl)
    · exact .inr ⟨h, id⟩
  | changed uri' edits version now =>
    simp only at h
    split at h
    · rcases Debounce.isPending_schedule.1 h with rfl | h
      · exact .inl (.inr (by simp [Event.batch?]))
      · exact .inr ⟨h, id⟩
    · exact .inr ⟨h, id⟩
  | closed disk uri' =>
    obtain ⟨hne, h⟩ := Debounce.isPending_cancel.1 h
    exact .inr ⟨h, fun hc => hne hc.symm⟩
  | published now => exact .inr ⟨Debounce.isPending_of_takeDue h, id⟩
  | _ => exact .inr ⟨h, id⟩

/-- If the editor changes only what belongs to it, only documents of the editor wait. -/
theorem isEditorOpen_of_isPending (hc : ChangesOwned config es)
    (h : (run config es).debounce.isPending uri = true) :
    (run config es).isEditorOpen uri = true := by
  induction es using List.reverseRecOn with
  | nil => cases h
  | append_singleton es e ih =>
    rw [run_concat] at h
    rcases isPending_step h with he | ⟨hbefore, hcloses⟩
    · exact hc.isEditorOpen he
    · rw [run_concat, isEditorOpen_step]
      exact .inr ⟨ih (changesOwned_concat.1 hc).1 hbefore, hcloses⟩

/-- **Publishing.**  After any operations, in whatever order their times come, the documents that are
handed out are those that await their diagnostics since the delay or longer, in ascending order and
none of them twice.  The next deadline is the earliest of those that wait, there is none just when
nothing waits, and something is handed out just when the next deadline has come.  In a session in
which the editor changes only what belongs to it, all that is handed out belongs to the editor. -/
theorem publishing_run (delay : Nat) (ops : List Debounce.Operation) (now : Nat) :
    (∀ uri, uri ∈ ((Debounce.run delay ops).takeDue now).1 ↔
      ∃ time, Debounce.Awaits delay ops uri time ∧ time + delay ≤ now) ∧
    ((Debounce.run delay ops).takeDue now).1.Pairwise (· < ·) ∧
    (∀ deadline, (Debounce.run delay ops).next? = some deadline ↔
      (∃ uri time, Debounce.Awaits delay ops uri time ∧ deadline = time + delay) ∧
        ∀ uri time, Debounce.Awaits delay ops uri time → deadline ≤ time + delay) ∧
    ((Debounce.run delay ops).next? = none ↔ ∀ uri time, ¬ Debounce.Awaits delay ops uri time) ∧
    (((Debounce.run delay ops).takeDue now).1 ≠ [] ↔
      ∃ deadline, (Debounce.run delay ops).next? = some deadline ∧ deadline ≤ now) ∧
    ∀ config es, ChangesOwned config es →
      ∀ uri ∈ ((run config es).takeDue now).1, (run config es).isEditorOpen uri = true := by
  refine ⟨fun uri => Debounce.mem_takeDue_run, Debounce.pairwise_takeDue .., fun deadline =>
    Debounce.next?_run, ?_, Debounce.takeDue_ne_nil_iff, fun config es hc uri huri => ?_⟩
  · simp only [Debounce.next?_eq_none_iff, ← Bool.not_eq_true, Debounce.isPending_run, not_exists]
  · obtain ⟨deadline, hget, -⟩ := Debounce.mem_takeDue_iff.1 huri
    exact isEditorOpen_of_isPending hc (Debounce.isPending_iff.2 ⟨deadline, hget⟩)

end Session

namespace Session

/-- A document is opened and, under another spelling of its URI, changed a little later. -/
def editedSoon : List Event :=
  [.opened "file:///a.py" ['x'] 1 0, .changed "file:///%61.py" [⟨none, ['y']⟩] 2 200]

/-- It is handed out the delay after the change and not before, and belongs to the editor then. -/
theorem publishing_editedSoon :
    ((run .default editedSoon).takeDue 499).1 = [] ∧
      ((run .default editedSoon).takeDue 500).1 = ["file:///a.py"] ∧
      (run .default editedSoon).isEditorOpen "file:///a.py" = true := by
  have hdue : ((run .default editedSoon).takeDue 500).1 = ["file:///a.py"] := by decide +kernel
  have howned : ChangesOwned .default editedSoon := by
    refine changesOwned_concat.2 ⟨changesOwned_concat.2 ⟨changesOwned_nil _, ?_⟩, ?_⟩
    · rintro uri edits version now ⟨⟩
    · rintro uri edits version now ⟨⟩
      decide +kernel
  refine ⟨by decide +kernel, hdue, ?_⟩
  obtain ⟨-, -, -, -, -, hsession⟩ := publishing_run 300 [] 500
  exact hsession .default editedSoon howned "file:///a.py" (hdue ▸ List.mem_singleton_self _)

end Session

end RouteScript
