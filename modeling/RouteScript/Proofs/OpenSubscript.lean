import Mathlib.Data.List.Induction
import RouteScript.Proofs.Forms

/-!
# What reaches over a cut

A text is cut in front of a dollar sign.  Behind the cut no parenthesis is closed that was opened in
front of it, so in front of the cut everything is read as if nothing followed, with one exception: a
subscript that is open at the cut goes on to the first closing bracket, whatever stands in between.

* `ClosesNothing`: the texts behind such cuts.
* `Matches.append`, `Matches.of_append`: the forms in front of the cut.
* `LeavesOpen`: the pass over a text ends in an open subscript.
* `reaches_iff`: a match reaches over the cut if and only if the pass over the front leaves a
  subscript open and the text behind closes it.
* `getLast?_scan_iff`: so it is known when a form behind the cut is found.
-/

namespace RouteScript.PseudoVar

/-- No parenthesis that was opened in front of the text is closed in it. -/
def ClosesNothing (t : Text) : Prop := ∀ depth, closing? depth t = none

/-- The first closing bracket of the text has a closing parenthesis behind it. -/
def ClosesSubscript (t : Text) : Prop :=
  ∃ index rest, t = index ++ ']' :: ')' :: rest ∧ ']' ∉ index

/-- Behind a dollar sign: a bracketed form up to some place in its subscript. -/
inductive Unclosed : Text → Prop
  | mk {cls t index : Text} {inner : Option Text} :
    IsWord cls t → Payload t inner ('[' :: index) → ']' ∉ index → Unclosed ('(' :: (cls ++ t))

/-- The pass over the text comes to an open subscript. -/
inductive LeavesOpen : Text → Prop
  | here {t : Text} : Unclosed t → LeavesOpen ('$' :: t)
  | plain {c : Char} {t : Text} : c ≠ '$' → LeavesOpen t → LeavesOpen (c :: t)
  | pair {t : Text} : LeavesOpen t → LeavesOpen ('$' :: '$' :: t)
  | lone {t : Text} : t.head? ≠ some '$' → (∀ f, ¬ Matches t f) → LeavesOpen t →
    LeavesOpen ('$' :: t)
  | form {t : Text} {f : Form} : Matches t f → LeavesOpen f.rest → LeavesOpen ('$' :: t)

/-- A match in the text from `offset` on reaches over the place. -/
def Reaches (place offset : Nat) (t : Text) : Prop :=
  ∃ v ∈ scanFrom 0 offset t, v.offset < place ∧ place < v.offset + v.size

variable {t behind : Text} {f : Form}

/-! ### Parentheses -/

theorem closing?_opened {depth : Nat} :
    closing? depth ('(' :: t) = none ↔ closing? (depth + 1) t = none := by
  rw [closing?.eq_def]
  simp only [if_true]
  rw [if_neg (by decide), Option.map_eq_none_iff]

theorem closing?_plain {depth : Nat} {front : Text} (ho : '(' ∉ front) (hc : ')' ∉ front) :
    closing? depth (front ++ t) = none ↔ closing? depth t = none := by
  induction front with
  | nil => exact Iff.rfl
  | cons c front ih =>
    rw [List.mem_cons, not_or] at ho hc
    rw [List.cons_append, closing?.eq_def]
    simp only
    rw [if_neg (Ne.symm hc.1), Option.map_eq_none_iff, if_neg (Ne.symm ho.1), ih ho.2 hc.2]

theorem ClosesNothing.nil : ClosesNothing [] := fun _ => rfl

theorem ClosesNothing.append {front : Text} (ho : '(' ∉ front) (hc : ')' ∉ front)
    (h : ClosesNothing t) : ClosesNothing (front ++ t) :=
  fun depth => (closing?_plain ho hc).2 (h depth)

theorem ClosesNothing.dollar (h : ClosesNothing t) : ClosesNothing ('$' :: t) :=
  @ClosesNothing.append t ['$'] (by decide) (by decide) h

/-- What is not closed stays open over a text that closes nothing. -/
theorem closing?_append_eq_none {depth : Nat} (h : closing? depth t = none)
    (hb : ClosesNothing behind) : closing? depth (t ++ behind) = none := by
  induction t generalizing depth with
  | nil => exact hb depth
  | cons c t ih =>
    rw [closing?.eq_def] at h
    rw [List.cons_append, closing?.eq_def]
    simp only at h ⊢
    split at h
    · rename_i hc
      rw [if_pos hc]
      cases depth with
      | zero => cases h
      | succ depth => exact Option.map_eq_none_iff.2 (ih (Option.map_eq_none_iff.1 h))
    · rename_i hc
      rw [if_neg hc]
      exact Option.map_eq_none_iff.2 (ih (Option.map_eq_none_iff.1 h))

/-- A payload and the parenthesis behind it close one parenthesis in front of it. -/
theorem closing?_payloadEnd {depth n : Nat} {inner rest : Text} (h : IsPayloadEnd n inner) :
    closing? (depth + 1 + n) (inner ++ ')' :: rest) = none ↔ closing? depth rest = none := by
  induction inner generalizing n with
  | nil =>
    obtain rfl := isPayloadEnd_nil.1 h
    rw [List.nil_append, closing?.eq_def]
    simp
  | cons c inner ih =>
    rw [List.cons_append, closing?.eq_def]
    simp only
    by_cases hc : c = ')'
    · subst hc
      obtain ⟨m, rfl, hm⟩ := isPayloadEnd_close.1 h
      rw [if_pos rfl, ← ih hm]
      exact Option.map_eq_none_iff
    · have hinner := (isPayloadEnd_cons hc).1 h
      rw [if_neg hc, Option.map_eq_none_iff, ← ih hinner]
      split <;> rfl

theorem ClosesNothing.payload {inner : Text} (hi : IsPayload inner) (h : ClosesNothing t) :
    ClosesNothing ('(' :: (inner ++ ')' :: t)) := fun depth =>
  closing?_opened.2 ((closing?_payloadEnd (isPayloadEnd_zero.2 hi)).2 (h depth))

/-- Nor is one closed where a class and a payload stand in parentheses. -/
theorem ClosesNothing.bracketed {cls inner : Text} (ho : '(' ∉ cls) (hc : ')' ∉ cls)
    (hi : IsPayload inner) : ClosesNothing ('(' :: (cls ++ '(' :: (inner ++ [')', ')']))) := by
  intro depth
  rw [closing?_opened, closing?_plain ho hc, closing?_opened]
  exact (closing?_payloadEnd (isPayloadEnd_zero.2 hi)).2 rfl

theorem isPayload_of_notMem {inner : Text} (ho : '(' ∉ inner) (hc : ')' ∉ inner) :
    IsPayload inner := by
  refine ⟨by rw [List.count_eq_zero.2 ho, List.count_eq_zero.2 hc], fun front hfront => ?_⟩
  exact absurd (hfront.subset (List.mem_append_right front (List.mem_singleton_self _))) hc

/-! ### Forms in front of the cut -/

theorem IsWord.append_of_ne_nil {word rest : Text} (h : IsWord word rest) (hne : rest ≠ [])
    (behind : Text) : IsWord word (rest ++ behind) := by
  refine ⟨h.start, h.chars, fun c hc => h.maximal c ?_⟩
  rwa [List.head?_append_of_ne_nil _ hne] at hc

theorem IsWord.append {word rest : Text} (h : IsWord word rest) (hb : behind.head? = some '$') :
    IsWord word (rest ++ behind) := by
  cases rest with
  | nil =>
    refine ⟨h.start, h.chars, fun c hc => ?_⟩
    rw [List.nil_append, hb] at hc
    cases hc
    rfl
  | cons c rest => exact h.append_of_ne_nil (List.cons_ne_nil c rest) behind

theorem IsWord.of_append {word rest : Text} (h : IsWord word (rest ++ behind)) :
    IsWord word rest := by
  refine ⟨h.start, h.chars, fun c hc => h.maximal c ?_⟩
  rw [List.head?_append, Option.mem_def.1 hc]
  rfl

theorem Payload.append {rest : Text} {inner : Option Text} (h : Payload t inner rest)
    (behind : Text) : Payload (t ++ behind) inner (rest ++ behind) := by
  cases h with
  | missing => exact .missing _
  | given hi =>
    rw [List.cons_append, List.append_assoc, List.cons_append]
    exact .given hi

theorem Subscript.append {rest : Text} {index : Option Text} (h : Subscript t index rest)
    (behind : Text) : Subscript (t ++ behind) index (rest ++ behind) := by
  cases h with
  | missing => exact .missing _
  | given hi =>
    rw [List.cons_append, List.append_assoc, List.cons_append]
    exact .given hi

/-- A payload that is not closed in front of the cut is not closed behind it. -/
theorem Payload.of_append {rest : Text} {inner : Option Text} (hb : behind.head? = some '$')
    (hc : ClosesNothing behind) (h : Payload (t ++ behind) inner rest) :
    ∃ front, rest = front ++ behind ∧ Payload t inner front := by
  generalize he : t ++ behind = whole at h
  cases h with
  | missing => exact ⟨t, he.symm, .missing t⟩
  | @given inner rest hi =>
    cases t with
    | nil =>
      rw [List.nil_append] at he
      rw [he] at hb
      cases hb
    | cons c t =>
      rw [List.cons_append, List.cons.injEq] at he
      obtain ⟨rfl, he⟩ := he
      have hwhole := closing?_of_isPayloadEnd (isPayloadEnd_zero.2 hi) rest
      rw [← he] at hwhole
      cases hfront : closing? 0 t with
      | none =>
        rw [closing?_append_eq_none hfront hc] at hwhole
        cases hwhole
      | some read =>
        obtain ⟨inner', front⟩ := read
        rw [closing?_append hfront behind] at hwhole
        cases hwhole
        rw [closing?_eq_some hfront]
        exact ⟨front, rfl, .given hi⟩

/-- A part without dollar signs at the start of the whole ends in front of the cut. -/
theorem exists_of_append_eq {part rest : Text} (hb : behind.head? = some '$') (hp : '$' ∉ part)
    (h : t ++ behind = part ++ rest) : ∃ front, t = part ++ front ∧ rest = front ++ behind := by
  rcases List.append_eq_append_iff.1 h with ⟨more, rfl, hmore⟩ | ⟨front, rfl, hrest⟩
  · cases more with
    | nil => exact ⟨[], by simp, hmore.symm⟩
    | cons c more =>
      rw [hmore] at hb
      cases hb
      exact absurd (List.mem_append_right t List.mem_cons_self) hp
  · exact ⟨front, rfl, hrest⟩

theorem IsWord.notMem {word rest : Text} {c : Char} (h : IsWord word rest)
    (hc : isWordChar c = false) : c ∉ word := fun hm => by
  rw [h.chars c hm] at hc
  cases hc

/-- What is read in front of the cut, is read there whatever stands behind. -/
theorem Matches.append (h : Matches t f) (hb : behind.head? = some '$')
    (hc : ClosesNothing behind) : Matches (t ++ behind) { f with rest := f.rest ++ behind } := by
  rcases h with h | h | h
  · cases h with
    | mk hw hp hs =>
      rw [List.cons_append, List.append_assoc]
      exact .inl (.mk (hw.append hb) (hp.append behind) (hs.append behind))
  · right
    left
    cases h with
    | @full cls inner rest hw hi =>
      have := hw.append hb
      rw [List.append_assoc, List.cons_append, List.append_assoc, List.cons_append]
      rw [List.cons_append, List.append_assoc, List.cons_append] at this
      exact .full this hi
    | @bare cls rest hw hp =>
      rw [List.append_assoc]
      refine .bare (hw.append hb) fun inner rest' hi he => ?_
      obtain ⟨front, -, hpayload⟩ := Payload.of_append (t := rest) hb hc (he ▸ Payload.given hi)
      cases hpayload with
      | given hi => exact hp _ _ hi rfl
  · cases h with
    | @mk path rest hne hpath hrest =>
      rw [List.cons_append, List.append_assoc]
      refine .inr (.inr (.mk hne hpath fun c hc => ?_))
      cases rest with
      | nil =>
        rw [List.nil_append, hb] at hc
        cases hc
        rfl
      | cons d rest => exact hrest c hc

/-- An open subscript is closed by what closes it behind the cut. -/
theorem Unclosed.matches (h : Unclosed t) {index : Text} (hi : ']' ∉ index) (rest : Text) :
    ∃ f, Matches (t ++ (index ++ ']' :: ')' :: rest)) f ∧ f.rest = rest := by
  cases h with
  | @mk cls t front inner hw hp hfront =>
    have hne : t ≠ [] := by cases hp <;> exact List.cons_ne_nil _ _
    have hs : Subscript ('[' :: front ++ (index ++ ']' :: ')' :: rest)) (some (front ++ index))
        (')' :: rest) := by
      rw [List.cons_append, ← List.append_assoc]
      exact .given (List.not_mem_append hfront hi)
    rw [List.cons_append, List.append_assoc]
    exact ⟨_, .inl (.mk (hw.append_of_ne_nil hne _) (hp.append _) hs), rfl⟩

/-- A subscript in front of the cut and the parenthesis behind it stand there as if nothing followed,
or the subscript is closed behind the cut. -/
theorem Subscript.of_append {rest : Text} {index : Option Text} (hb : behind.head? = some '$')
    (h : Subscript (t ++ behind) index (')' :: rest)) :
    (∃ front, Subscript t index (')' :: front)) ∨
      ∃ front, t = '[' :: front ∧ ']' ∉ front ∧ ClosesSubscript behind := by
  have hne : ∀ {c : Char} {t : Text}, c ≠ '$' → c :: t ≠ behind := by
    rintro c t hc rfl
    exact hc (Option.some.inj hb)
  generalize he : t ++ behind = whole at h
  generalize hr : ')' :: rest = last at h
  cases h with
  | missing =>
    subst hr
    cases t with
    | nil => exact absurd he.symm (hne (by decide))
    | cons c t =>
      obtain ⟨rfl, -⟩ := List.cons_eq_cons.1 he
      exact .inl ⟨t, .missing _⟩
  | @given index _ hi =>
    subst hr
    cases t with
    | nil => exact absurd he.symm (hne (by decide))
    | cons c t =>
      rw [List.cons_append, List.cons.injEq] at he
      obtain ⟨rfl, he⟩ := he
      rcases List.append_eq_append_iff.1 he with ⟨more, rfl, hmore⟩ | ⟨front, rfl, hfront⟩
      · rw [List.mem_append, not_or] at hi
        exact .inr ⟨t, rfl, hi.1, more, rest, hmore, hi.2⟩
      · -- neither the bracket nor the parenthesis behind it is where the cut is
        match front, hfront with
        | [], hfront => exact absurd hfront (hne (by decide))
        | [_], hfront => exact absurd (List.cons_eq_cons.1 hfront).2 (hne (by decide))
        | c :: d :: front, hfront =>
          simp only [List.cons_append, List.cons.injEq] at hfront
          obtain ⟨rfl, rfl, -⟩ := hfront
          exact .inl ⟨front, .given hi⟩

/-- A form in front of the cut is read as if nothing followed, or it is one with an open subscript
that is closed behind the cut. -/
theorem Matches.of_append (hb : behind.head? = some '$') (hc : ClosesNothing behind) (ht : t ≠ [])
    (h : Matches (t ++ behind) f) :
    (∃ g, Matches t g) ∨ Unclosed t ∧ ClosesSubscript behind := by
  obtain ⟨c, t, rfl⟩ := List.exists_cons_of_ne_nil ht
  rw [List.cons_append] at h
  generalize he : c :: (t ++ behind) = whole at h
  rcases h with h | h | h
  · cases h with
    | @mk cls t₀ t₁ rest inner index hw hp hs =>
      rw [List.cons.injEq] at he
      obtain ⟨rfl, he⟩ := he
      obtain ⟨t₂, rfl, rfl⟩ := exists_of_append_eq hb (hw.notMem rfl) he
      obtain ⟨t₃, rfl, hpayload⟩ := hp.of_append hb hc
      rcases hs.of_append hb with ⟨front, hsubscript⟩ | ⟨front, rfl, hfront, hcloses⟩
      · exact .inl ⟨_, .inl (.mk hw.of_append hpayload hsubscript)⟩
      · exact .inr ⟨.mk hw.of_append hpayload hfront, hcloses⟩
  · left
    obtain ⟨d, hd, hs⟩ := h.head?
    rw [← he] at hd
    cases hd
    have hword : (word? (c :: t)).isSome = true := by rw [word?, if_pos hs]; rfl
    rw [← isSome_named?] at hword
    obtain ⟨g, hg⟩ := Option.isSome_iff_exists.1 hword
    exact ⟨g, .inr (.inl (named?_eq_some_iff.1 hg))⟩
  · left
    cases h with
    | @mk path rest hne hpath hrest =>
      rw [List.cons.injEq] at he
      obtain ⟨rfl, he⟩ := he
      have hplain : '$' ∉ path := fun hm => ne_dollar_of_isAliasChar (hpath '$' hm) rfl
      obtain ⟨front, rfl, rfl⟩ := exists_of_append_eq hb hplain he
      refine ⟨_, .inr (.inr (.mk hne hpath fun c hc => hrest c ?_))⟩
      rw [List.head?_append, Option.mem_def.1 hc]
      rfl

/-- Where a subscript is open, no form stands yet. -/
theorem Unclosed.not_matches (h : Unclosed t) : ¬ Matches t f := by
  intro hf
  -- behind the cut a pair of parentheses with a bracket in it
  have hc : ClosesNothing ['$', '(', ']', ')'] := by
    have hi : IsPayload [']'] := isPayload_of_notMem (by decide) (by decide)
    exact .dollar (.payload hi .nil)
  have hindex : ']' ∉ ['$', '('] := by decide
  obtain ⟨g, hg, hrest⟩ := h.matches hindex []
  have := congrArg Form.rest (hg.unique (hf.append rfl hc))
  simp [hrest] at this

/-! ### The pass -/

theorem Unclosed.head? (h : Unclosed t) : t.head? = some '(' := by
  cases h
  rfl

theorem not_leavesOpen_nil : ¬ LeavesOpen [] := nofun

theorem leavesOpen_plain {c : Char} (hc : c ≠ '$') : LeavesOpen (c :: t) ↔ LeavesOpen t := by
  refine ⟨fun h => ?_, .plain hc⟩
  cases h with
  | plain _ h => exact h
  | here | pair | lone | form => exact absurd rfl hc

theorem leavesOpen_pair : LeavesOpen ('$' :: '$' :: t) ↔ LeavesOpen t := by
  refine ⟨fun h => ?_, .pair⟩
  cases h with
  | here h => exact absurd h.head? (by simp)
  | plain hc => exact absurd rfl hc
  | pair h => exact h
  | lone hd => exact absurd rfl hd
  | form hm => exact absurd rfl hm.head?_ne_dollar

/-- Behind a dollar sign that starts no match, a subscript is open or the pass goes on. -/
theorem leavesOpen_lone (hd : t.head? ≠ some '$') (hf : ∀ f, ¬ Matches t f) :
    LeavesOpen ('$' :: t) ↔ Unclosed t ∨ LeavesOpen t := by
  refine ⟨fun h => ?_, fun h => h.elim .here (.lone hd hf)⟩
  cases h with
  | here h => exact .inl h
  | plain hc => exact absurd rfl hc
  | pair => exact absurd rfl hd
  | lone _ _ h => exact .inr h
  | form hm => exact absurd hm (hf _)

theorem leavesOpen_form (hm : Matches t f) : LeavesOpen ('$' :: t) ↔ LeavesOpen f.rest := by
  refine ⟨fun h => ?_, .form hm⟩
  cases h with
  | here h => exact absurd hm h.not_matches
  | plain hc => exact absurd rfl hc
  | pair => exact absurd rfl hm.head?_ne_dollar
  | lone _ hf => exact absurd hm (hf _)
  | form hm' h => rwa [hm.unique hm']

theorem reaches_plain {place offset : Nat} {c : Char} (hc : c ≠ '$') :
    Reaches place offset (c :: t) ↔ Reaches place (offset + c.utf8Size) t := by
  rw [Reaches, scanFrom_plain hc, Reaches]

theorem reaches_pair {place offset : Nat} :
    Reaches place offset ('$' :: '$' :: t) ↔ Reaches place (offset + 2) t := by
  rw [Reaches, scanFrom_pair, Reaches]

theorem reaches_lone {place offset : Nat} (hd : t.head? ≠ some '$') (hf : form? t = none) :
    Reaches place offset ('$' :: t) ↔ Reaches place (offset + 1) t := by
  rw [Reaches, scanFrom_lone hd hf, Reaches]

theorem reaches_form {place offset : Nat} {used : Text} (hm : Matches (used ++ f.rest) f)
    (hp : offset < place) : Reaches place offset ('$' :: (used ++ f.rest)) ↔
      place < offset + 1 + used.bytes ∨ Reaches place (offset + 1 + used.bytes) f.rest := by
  rw [Reaches, scanFrom_form hm.head?_ne_dollar (form?_eq_some_iff.2 hm)]
  simp only [List.exists_mem_cons_iff, size, Text.bytes_cons, utf8Size_dollar, Nat.add_assoc, hp,
    true_and]
  rfl

/-- A dollar sign that starts no match in the front starts one that reaches over the cut if a subscript
is open behind it and gets closed.  Else the pass goes on behind the dollar sign. -/
theorem reaches_lone_iff {offset : Nat} (hb : behind.head? = some '$') (hc : ClosesNothing behind)
    (hd : t.head? ≠ some '$') (hf : ∀ f, ¬ Matches t f)
    (ih : Reaches (offset + 1 + t.bytes) (offset + 1) (t ++ behind) ↔
      LeavesOpen t ∧ ClosesSubscript behind) :
    Reaches (offset + 1 + t.bytes) offset ('$' :: (t ++ behind)) ↔
      (Unclosed t ∨ LeavesOpen t) ∧ ClosesSubscript behind := by
  rcases eq_or_ne t [] with rfl | ht
  · -- the dollar sign and the one behind the cut are a pair
    obtain ⟨behind, rfl⟩ := List.head?_eq_some_iff.1 hb
    refine iff_of_false ?_ fun h => h.1.elim (fun h => ?_) not_leavesOpen_nil
    · rw [List.nil_append, reaches_pair]
      rintro ⟨v, hv, hlt, -⟩
      have := (bounds_of_mem_scanFrom hv).1
      rw [Text.bytes_nil] at hlt
      omega
    · exact absurd h.head? (by simp)
  by_cases hboth : Unclosed t ∧ ClosesSubscript behind
  · obtain ⟨hopen, index, rest, rfl, hindex⟩ := hboth
    refine iff_of_true ?_ ⟨.inl hopen, index, rest, rfl, hindex⟩
    obtain ⟨f, hm, rfl⟩ := hopen.matches hindex rest
    have hcut : t ++ (index ++ ']' :: ')' :: f.rest) = t ++ index ++ [']', ')'] ++ f.rest := by simp
    rw [hcut] at hm ⊢
    refine (reaches_form hm (by omega)).2 (.inl ?_)
    simp only [Text.bytes_append, Text.bytes_cons, Text.bytes_nil]
    have := ']'.utf8Size_pos
    omega
  · have hnone : form? (t ++ behind) = none := by
      rw [Option.eq_none_iff_forall_ne_some]
      intro f hm
      rcases (form?_eq_some_iff.1 hm).of_append hb hc ht with ⟨g, hg⟩ | h
      · exact hf g hg
      · exact hboth h
    have hd' : (t ++ behind).head? ≠ some '$' := by rwa [List.head?_append_of_ne_nil _ ht]
    rw [reaches_lone hd' hnone, ih, or_and_right, or_iff_right hboth]

/-- A match reaches over the cut if and only if the pass over the front leaves a subscript open and
the text behind closes it. -/
theorem reaches_iff (hb : behind.head? = some '$') (hc : ClosesNothing behind) (offset : Nat) :
    Reaches (offset + Text.bytes t) offset (t ++ behind) ↔
      LeavesOpen t ∧ ClosesSubscript behind := by
  induction t using scan_induction generalizing offset with
  | nil =>
    refine iff_of_false ?_ fun h => not_leavesOpen_nil h.1
    rintro ⟨v, hv, hlt, -⟩
    exact absurd hlt (Nat.not_lt.2 (bounds_of_mem_scanFrom hv).1)
  | plain c t hplain ih =>
    rw [leavesOpen_plain hplain, List.cons_append, reaches_plain hplain, Text.bytes_cons,
      ← Nat.add_assoc]
    exact ih _
  | pair t ih =>
    rw [leavesOpen_pair, List.cons_append, List.cons_append, reaches_pair, Text.bytes_cons,
      Text.bytes_cons, utf8Size_dollar, ← Nat.add_assoc, ← Nat.add_assoc]
    exact ih _
  | lone t hd hf ih =>
    have hnone : ∀ f, ¬ Matches t f := fun f hm => by
      rw [form?_eq_some_iff.2 hm] at hf
      cases hf
    rw [leavesOpen_lone hd hnone, List.cons_append, Text.bytes_cons, utf8Size_dollar,
      ← Nat.add_assoc]
    exact reaches_lone_iff hb hc hd hnone (ih _)
  | form used f hd hf _ ih =>
    have hm := form?_eq_some_iff.1 hf
    have hm' := hm.append hb hc
    have hplace : offset + Text.bytes ('$' :: (used ++ f.rest)) =
        offset + 1 + used.bytes + f.rest.bytes := by
      rw [Text.bytes_cons, Text.bytes_append, utf8Size_dollar]
      omega
    rw [List.append_assoc] at hm'
    have hlt : offset < offset + 1 + used.bytes + f.rest.bytes := by omega
    have hnot : ¬ offset + 1 + used.bytes + f.rest.bytes < offset + 1 + used.bytes := by omega
    rw [leavesOpen_form hm, ← ih, hplace, List.cons_append, List.append_assoc]
    exact (reaches_form (f := { f with rest := f.rest ++ behind }) hm' hlt).trans
      (or_iff_right hnot)

/-! ### Behind the cut -/

/-- The text ends in an odd number of dollar signs, so that one behind it is an escaped one. -/
def Escapes (t : Text) : Prop := (t.reverse.takeWhile (· == '$')).length % 2 = 1

instance (t : Text) : Decidable (Escapes t) := inferInstanceAs (Decidable (_ = 1))

theorem exists_run (t : Text) : ∃ front n, t = front ++ List.replicate n '$' ∧ EndsPlain front := by
  induction t using List.reverseRecOn with
  | nil => exact ⟨[], 0, rfl, endsPlain_nil⟩
  | append_singleton t c ih =>
    by_cases hc : c = '$'
    · obtain ⟨front, n, rfl, hfront⟩ := ih
      refine ⟨front, n + 1, ?_, hfront⟩
      rw [hc, List.replicate_succ', List.append_assoc]
    · exact ⟨t ++ [c], 0, (List.append_nil _).symm, endsPlain_concat t hc⟩

theorem escapes_run {front : Text} (hf : EndsPlain front) (n : Nat) :
    Escapes (front ++ List.replicate n '$') ↔ n % 2 = 1 := by
  have hplain : front.reverse.takeWhile (· == '$') = [] := by
    rw [EndsPlain, ← List.head?_reverse] at hf
    cases h : front.reverse with
    | nil => rfl
    | cons c back =>
      rw [h] at hf
      exact List.takeWhile_cons_of_neg fun hc => hf (congrArg some (beq_iff_eq.1 hc))
  have hrun : ∀ c ∈ List.replicate n '$', (c == '$') = true := fun c hc =>
    beq_iff_eq.2 (List.eq_of_mem_replicate hc)
  rw [Escapes, List.reverse_append, List.reverse_replicate, List.takeWhile_append_of_pos hrun,
    hplain, List.append_nil, List.length_replicate]

/-- Behind a run of dollar signs, one more counts if it is not escaped. -/
theorem dollarAt_run {body after : Text} (hb : body.head? ≠ some '$') (n : Nat) :
    DollarAt (List.replicate n '$' ++ '$' :: body) n after ↔ n % 2 ≠ 1 ∧ after = body := by
  induction n using Nat.twoStepInduction with
  | zero =>
    refine (dollarAt_lone hb).trans ⟨?_, fun h => .inl ⟨rfl, h.2⟩⟩
    rintro (⟨-, rfl⟩ | ⟨p, hp, -⟩)
    · exact ⟨by decide, rfl⟩
    · omega
  | one =>
    refine dollarAt_pair.trans (iff_of_false ?_ fun h => h.1 rfl)
    rintro ⟨p, hp, -⟩
    omega
  | more n ih _ =>
    rw [Nat.add_mod_right, ← ih]
    refine dollarAt_pair.trans ⟨?_, fun h => ⟨n, Nat.add_comm n 2, h⟩⟩
    rintro ⟨p, hp, h⟩
    obtain rfl : p = n := by omega
    exact h

theorem dollarAt_behind {pre body after : Text} (hb : body.head? ≠ some '$') :
    DollarAt (pre ++ '$' :: body) pre.bytes after ↔ ¬ Escapes pre ∧ after = body := by
  obtain ⟨front, n, rfl, hf⟩ := exists_run pre
  rw [escapes_run hf, List.append_assoc, Text.bytes_append, bytes_replicate_dollar,
    dollarAt_append (.inl hf), dollarAt_run hb]

/-- A match that ends with the text is the last one. -/
theorem getLast?_scan_eq_some_iff {t : Text} {v : PseudoVar} (hv : v.offset + v.size = t.bytes) :
    (scan t).getLast? = some v ↔ v ∈ scan t := by
  refine ⟨List.mem_of_getLast?, fun h => ?_⟩
  obtain ⟨front, back, hscan⟩ := List.append_of_mem h
  have hback : back = [] := by
    refine List.eq_nil_iff_forall_not_mem.2 fun w hw => ?_
    have hpairs := pairwise_scanFrom t 0
    rw [← scan, hscan] at hpairs
    have hle := List.rel_of_pairwise_cons (List.pairwise_append.1 hpairs).2.1 hw
    have hw' : w ∈ scan t := hscan ▸ List.mem_append_right front (List.mem_cons_of_mem v hw)
    have := bounds_of_mem_scanFrom hw'
    omega
  rw [hscan, hback, List.getLast?_concat]

/-- A form behind the cut that goes to the end of the text is found there if and only if its dollar
sign is not escaped and the text in front leaves no subscript open that gets closed in it. -/
theorem getLast?_scan_iff {pre body : Text} {f : Form} (hm : Matches body f) (hr : f.rest = [])
    (hc : ClosesNothing ('$' :: body)) :
    (scan (pre ++ '$' :: body)).getLast? =
        some ⟨'$' :: body, f.cls, f.inner, f.index, pre.bytes⟩ ↔
      ¬ Escapes pre ∧ ¬ (LeavesOpen pre ∧ ClosesSubscript ('$' :: body)) := by
  have hreaches : Reaches (0 + pre.bytes) 0 (pre ++ '$' :: body) ↔
    LeavesOpen pre ∧ ClosesSubscript ('$' :: body) := reaches_iff rfl hc 0
  rw [Nat.zero_add] at hreaches
  have hend : pre.bytes + Text.bytes ('$' :: body) = Text.bytes (pre ++ '$' :: body) :=
    (Text.bytes_append ..).symm
  rw [getLast?_scan_eq_some_iff hend, ← hreaches, scan, mem_scanFrom_iff]
  constructor
  · rintro ⟨p, used, g, hv, hd, -, hw⟩
    simp only [PseudoVar.mk.injEq, List.cons.injEq, true_and, Nat.zero_add] at hv hw
    obtain ⟨rfl, -, -, -, rfl⟩ := hv
    refine ⟨((dollarAt_behind hm.head?_ne_dollar).1 hd).1, ?_⟩
    rintro ⟨w, hmem, hlt, hover⟩
    exact absurd hover (Nat.not_lt.2 (hw w hmem hlt))
  · rintro ⟨hescapes, hover⟩
    have hbody : body ++ f.rest = body := by rw [hr, List.append_nil]
    refine ⟨pre.bytes, body, f, by rw [Nat.zero_add], ?_, hbody.symm ▸ hm, fun w hmem hlt => ?_⟩
    · exact (dollarAt_behind hm.head?_ne_dollar).2 ⟨hescapes, hbody⟩
    · rw [Nat.zero_add] at hlt ⊢
      exact Nat.not_lt.1 fun h => hover ⟨w, hmem, hlt, h⟩

/-- A payload that ends in a bracket closes the subscript in front of its dollar sign. -/
example : scan "$(a(b)[$c(d])".toList =
    [⟨"$(a(b)[$c(d])".toList, ['a'], some ['b'], some "$c(d".toList, 0⟩] := by decide

end RouteScript.PseudoVar
