import RouteScript.Proofs.Scanner

/-!
# The grammar of pseudo-variables

The forms a pseudo-variable can have are given as relations between the text behind a dollar sign
and what is read from it, without reference to how it is read: an identifier is as long as it goes,
and a payload ends at the first parenthesis that balances the one it starts with.  A dollar sign
counts if it is the last one of a run of odd length.

* `bracketed?_eq_some_iff_bracketed`, `named?_eq_some_iff`, `selectAlias?_eq_some_iff`: each reader
  reads its own form.
* `form?_eq_some_iff`, `Matches.unique`: a text has one form at most.
* `dollarAt_append`, `dollarAt_pair`: where the dollar signs are that count.
* `mem_scanFrom_iff`: the pass finds what the grammar allows, and all of it.
* `scan_spec`: the grammar of the scanner.
-/

namespace RouteScript.PseudoVar

/-! ### The forms -/

/-- The text is an identifier, and what is behind it does not go on with it. -/
structure IsWord (word rest : Text) : Prop where
  start : ∃ c ∈ word.head?, isWordStart c = true
  chars : ∀ c ∈ word, isWordChar c = true
  maximal : ∀ c ∈ rest.head?, isWordChar c = false

/-- Between an opening parenthesis and the first one that balances it: a closing parenthesis
balances the opening one if as many are opened as closed in between. -/
structure IsPayload (inner : Text) : Prop where
  balanced : inner.count '(' = inner.count ')'
  first : ∀ front, front ++ [')'] <+: inner → front.count '(' ≠ front.count ')'

/-- A payload in parentheses, or none. -/
inductive Payload : Text → Option Text → Text → Prop
  | missing (t : Text) : Payload t none t
  | given {inner rest : Text} :
    IsPayload inner → Payload ('(' :: (inner ++ ')' :: rest)) (some inner) rest

/-- A subscript in brackets, or none. -/
inductive Subscript : Text → Option Text → Text → Prop
  | missing (t : Text) : Subscript t none t
  | given {index rest : Text} :
    ']' ∉ index → Subscript ('[' :: (index ++ ']' :: rest)) (some index) rest

/-- `(class(inner)[index])`, where the payload and the subscript may be missing. -/
inductive Bracketed : Text → Form → Prop
  | mk {cls t t' rest : Text} {inner index : Option Text} :
    IsWord cls t → Payload t inner t' → Subscript t' index (')' :: rest) →
      Bracketed ('(' :: (cls ++ t)) ⟨cls, inner, index, rest⟩

/-- `class(inner)`, or `class` alone if no payload is closed behind it. -/
inductive Named : Text → Form → Prop
  | full {cls inner rest : Text} :
    IsWord cls ('(' :: (inner ++ ')' :: rest)) → IsPayload inner →
      Named (cls ++ '(' :: (inner ++ ')' :: rest)) ⟨cls, some inner, none, rest⟩
  | bare {cls rest : Text} :
    IsWord cls rest → (∀ inner rest', IsPayload inner → rest ≠ '(' :: (inner ++ ')' :: rest')) →
      Named (cls ++ rest) ⟨cls, none, none, rest⟩

/-- `@path`, a select alias. -/
inductive SelectAlias : Text → Form → Prop
  | mk {path rest : Text} :
    path ≠ [] → (∀ c ∈ path, isAliasChar c = true) → (∀ c ∈ rest.head?, isAliasChar c = false) →
      SelectAlias ('@' :: (path ++ rest)) ⟨['s', 'e', 'l'], some path, none, rest⟩

/-- One of the forms stands at the start of the text. -/
def Matches (t : Text) (f : Form) : Prop := Bracketed t f ∨ Named t f ∨ SelectAlias t f

/-! ### The parts of a form -/

/-- The longest front part whose characters pass a test. -/
theorem takeWhile_dropWhile_iff {p : Char → Bool} {t front rest : Text} :
    t.takeWhile p = front ∧ t.dropWhile p = rest ↔
      t = front ++ rest ∧ (∀ c ∈ front, p c = true) ∧ ∀ c ∈ rest.head?, p c = false := by
  constructor
  · rintro ⟨rfl, rfl⟩
    refine ⟨List.takeWhile_append_dropWhile.symm, fun c hc => List.mem_takeWhile_imp hc, ?_⟩
    intro c hc
    have := List.head?_dropWhile_not p t
    rw [Option.mem_def.1 hc] at this
    simpa using this
  · rintro ⟨rfl, hfront, hrest⟩
    rw [List.takeWhile_append_of_pos hfront, List.dropWhile_append_of_pos hfront]
    cases rest with
    | nil => simp
    | cons c rest =>
      have hc : ¬ p c = true := by simp [hrest c rfl]
      rw [List.takeWhile_cons_of_neg hc, List.dropWhile_cons_of_neg hc, List.append_nil]
      exact ⟨rfl, rfl⟩

theorem word?_eq_some_iff {t word rest : Text} :
    word? t = some (word, rest) ↔ t = word ++ rest ∧ IsWord word rest := by
  constructor
  · intro h
    cases t with
    | nil => cases h
    | cons c t =>
      rw [word?] at h
      split at h
      · rename_i hc
        cases h
        obtain ⟨ht, hchars, hmax⟩ := takeWhile_dropWhile_iff (p := isWordChar).1 ⟨rfl, rfl⟩
        refine ⟨congrArg (c :: ·) ht, ⟨c, rfl, hc⟩, fun x hx => ?_, hmax⟩
        rcases List.mem_cons.1 hx with rfl | hx
        · exact isWordChar_of_isWordStart hc
        · exact hchars x hx
      · cases h
  · rintro ⟨rfl, ⟨c, hc, hstart⟩, hchars, hmax⟩
    obtain ⟨cs, rfl⟩ := List.head?_eq_some_iff.1 hc
    obtain ⟨htake, hdrop⟩ := takeWhile_dropWhile_iff.2
      ⟨rfl, fun x hx => hchars x (List.mem_cons_of_mem c hx), hmax⟩
    rw [List.cons_append, word?, if_pos hstart, htake, hdrop]

/-- The closing parentheses of a text that starts with `c`. -/
theorem forall_closing_cons {c : Char} {inner : Text} {P : Text → Prop} :
    (∀ front, front ++ [')'] <+: c :: inner → P front) ↔
      (c = ')' → P []) ∧ ∀ front, front ++ [')'] <+: inner → P (c :: front) := by
  constructor
  · intro h
    refine ⟨?_, fun front hf => h (c :: front) ((List.prefix_cons_inj c).2 hf)⟩
    rintro rfl
    exact h [] (List.prefix_append [')'] inner)
  · rintro ⟨hnil, hcons⟩ front hf
    cases front with
    | nil => exact hnil (List.cons_prefix_cons.1 hf).1.symm
    | cons d front =>
      obtain ⟨rfl, hf'⟩ := List.cons_prefix_cons.1 hf
      exact hcons front hf'

/-- A payload of which the front part is left out: `depth` parentheses were opened there. -/
structure IsPayloadEnd (depth : Nat) (inner : Text) : Prop where
  balanced : inner.count '(' + depth = inner.count ')'
  first : ∀ front, front ++ [')'] <+: inner → front.count '(' + depth ≠ front.count ')'

theorem isPayloadEnd_zero {inner : Text} : IsPayloadEnd 0 inner ↔ IsPayload inner :=
  ⟨fun h => ⟨h.1, h.2⟩, fun h => ⟨h.1, h.2⟩⟩

theorem isPayloadEnd_nil {depth : Nat} : IsPayloadEnd depth [] ↔ depth = 0 := by
  constructor
  · intro h
    simpa using h.balanced
  · rintro rfl
    refine ⟨rfl, fun front hf => ?_⟩
    simp at hf

theorem isPayloadEnd_close {depth : Nat} {inner : Text} :
    IsPayloadEnd depth (')' :: inner) ↔ ∃ n, depth = n + 1 ∧ IsPayloadEnd n inner := by
  constructor
  · rintro ⟨hb, hf⟩
    obtain ⟨hnil, hcons⟩ := forall_closing_cons.1 hf
    obtain ⟨n, rfl⟩ : ∃ n, depth = n + 1 :=
      Nat.exists_eq_succ_of_ne_zero fun h => hnil rfl (by simp [h])
    refine ⟨n, rfl, ?_, fun front h => ?_⟩
    · simp at hb
      omega
    · have := hcons front h
      simp at this
      omega
  · rintro ⟨n, rfl, hb, hf⟩
    refine ⟨?_, forall_closing_cons.2 ⟨fun _ => by simp, fun front h => ?_⟩⟩
    · simp
      omega
    · have := hf front h
      simp
      omega

theorem isPayloadEnd_cons {depth : Nat} {c : Char} (hc : c ≠ ')') {inner : Text} :
    IsPayloadEnd depth (c :: inner) ↔
      IsPayloadEnd (if c = '(' then depth + 1 else depth) inner := by
  have hopen : ∀ front : Text, (c :: front).count '(' + depth =
      front.count '(' + if c = '(' then depth + 1 else depth := by
    intro front
    by_cases h : c = '(' <;> simp [h]
    omega
  have hclose : ∀ front : Text, (c :: front).count ')' = front.count ')' := fun front =>
    List.count_cons_of_ne hc
  constructor
  · rintro ⟨hb, hf⟩
    rw [hopen, hclose] at hb
    refine ⟨hb, fun front h => ?_⟩
    rw [← hopen, ← hclose front]
    exact (forall_closing_cons.1 hf).2 front h
  · rintro ⟨hb, hf⟩
    rw [← hopen, ← hclose inner] at hb
    refine ⟨hb, forall_closing_cons.2 ⟨fun h => absurd h hc, fun front h => ?_⟩⟩
    rw [hopen, hclose]
    exact hf front h

theorem isPayloadEnd_of_closing? {depth : Nat} {t inner rest : Text}
    (h : closing? depth t = some (inner, rest)) : IsPayloadEnd depth inner := by
  induction t generalizing depth inner with
  | nil => cases h
  | cons c t ih =>
    rw [closing?.eq_def] at h
    simp only at h
    split at h
    · rename_i hc
      cases depth with
      | zero =>
        cases h
        exact isPayloadEnd_nil.2 rfl
      | succ depth =>
        obtain ⟨⟨inner', rest'⟩, ht, he⟩ := Option.map_eq_some_iff.1 h
        cases he
        rw [hc]
        exact isPayloadEnd_close.2 ⟨depth, rfl, ih ht⟩
    · rename_i hc
      obtain ⟨⟨inner', rest'⟩, ht, he⟩ := Option.map_eq_some_iff.1 h
      cases he
      exact (isPayloadEnd_cons hc).2 (ih ht)

theorem closing?_of_isPayloadEnd {depth : Nat} {inner : Text} (h : IsPayloadEnd depth inner)
    (rest : Text) : closing? depth (inner ++ ')' :: rest) = some (inner, rest) := by
  induction inner generalizing depth with
  | nil =>
    obtain rfl := isPayloadEnd_nil.1 h
    rfl
  | cons c inner ih =>
    rw [List.cons_append, closing?.eq_def]
    simp only
    by_cases hc : c = ')'
    · subst hc
      obtain ⟨n, rfl, hn⟩ := isPayloadEnd_close.1 h
      rw [if_pos rfl]
      simp only [ih hn, Option.map_some]
    · rw [if_neg hc, ih ((isPayloadEnd_cons hc).1 h)]
      rfl

/-- A payload ends at the first parenthesis that balances the one it starts with. -/
theorem payload?_eq_some_iff {t inner rest : Text} : payload? t = some (inner, rest) ↔
    t = '(' :: (inner ++ ')' :: rest) ∧ IsPayload inner := by
  constructor
  · intro h
    refine ⟨payload?_eq_some h, ?_⟩
    unfold payload? at h
    split at h
    · exact isPayloadEnd_zero.1 (isPayloadEnd_of_closing? h)
    · cases h
  · rintro ⟨rfl, h⟩
    exact closing?_of_isPayloadEnd (isPayloadEnd_zero.2 h) rest

theorem payload?_eq_none_iff {t : Text} : payload? t = none ↔
    ∀ inner rest, IsPayload inner → t ≠ '(' :: (inner ++ ')' :: rest) := by
  rw [Option.eq_none_iff_forall_ne_some]
  constructor
  · rintro h inner rest hp rfl
    exact h (inner, rest) (payload?_eq_some_iff.2 ⟨rfl, hp⟩)
  · rintro h ⟨inner, rest⟩ hp
    obtain ⟨ht, hi⟩ := payload?_eq_some_iff.1 hp
    exact h inner rest hi ht

theorem subscript?_eq_some_iff {t index rest : Text} : subscript? t = some (index, rest) ↔
    t = '[' :: (index ++ ']' :: rest) ∧ ']' ∉ index := by
  constructor
  · intro h
    unfold subscript? at h
    split at h
    · rename_i t
      split at h
      · rename_i c rest' hd
        cases h
        obtain ⟨ht, hfront, hhead⟩ := takeWhile_dropWhile_iff.1 ⟨rfl, hd⟩
        have hc : c = ']' := by simpa using hhead c rfl
        rw [hc] at ht
        refine ⟨congrArg ('[' :: ·) ht, fun hm => ?_⟩
        simpa using hfront ']' hm
      · cases h
    · cases h
  · rintro ⟨rfl, hm⟩
    have hindex : ∀ c ∈ index, (c != ']') = true := by
      intro c hc
      rw [bne_iff_ne]
      rintro rfl
      exact hm hc
    have hrest : ∀ c ∈ (']' :: rest).head?, (c != ']') = false := by
      intro c hc
      cases hc
      rfl
    obtain ⟨htake, hdrop⟩ := takeWhile_dropWhile_iff.2 ⟨rfl, hindex, hrest⟩
    simp only [subscript?, htake, hdrop]

theorem optional_eq_some_iff {opening : Char} {read? : Text → Option (Text × Text)} {t rest : Text}
    {part : Option Text} : optional opening read? t = some (part, rest) ↔
      (t.head? = some opening ∧ ∃ p, part = some p ∧ read? t = some (p, rest)) ∨
        (t.head? ≠ some opening ∧ part = none ∧ rest = t) := by
  unfold optional
  split
  · rename_i h
    rw [Option.map_eq_some_iff]
    constructor
    · rintro ⟨⟨p, r⟩, hr, he⟩
      cases he
      exact .inl ⟨h, p, rfl, hr⟩
    · rintro (⟨-, p, rfl, hr⟩ | ⟨hne, -⟩)
      · exact ⟨(p, rest), hr, rfl⟩
      · exact absurd h hne
  · rename_i h
    simp [h, eq_comm]

/-! ### The readers -/

theorem payload_of_optional {t rest : Text} {part : Option Text}
    (h : optional '(' payload? t = some (part, rest)) : Payload t part rest := by
  rcases optional_eq_some_iff.1 h with ⟨-, p, rfl, hp⟩ | ⟨-, rfl, rfl⟩
  · obtain ⟨rfl, hi⟩ := payload?_eq_some_iff.1 hp
    exact .given hi
  · exact .missing _

theorem subscript_of_optional {t rest : Text} {part : Option Text}
    (h : optional '[' subscript? t = some (part, rest)) : Subscript t part rest := by
  rcases optional_eq_some_iff.1 h with ⟨-, p, rfl, hp⟩ | ⟨-, rfl, rfl⟩
  · obtain ⟨rfl, hi⟩ := subscript?_eq_some_iff.1 hp
    exact .given hi
  · exact .missing _

/-- In front of a closing parenthesis, a subscript that is missing is not opened either. -/
theorem Subscript.optional_eq {t rest : Text} {index : Option Text}
    (h : Subscript t index (')' :: rest)) :
    optional '[' subscript? t = some (index, ')' :: rest) := by
  refine optional_eq_some_iff.2 ?_
  cases h with
  | missing => exact .inr ⟨by simp, rfl, rfl⟩
  | given hi => exact .inl ⟨rfl, _, rfl, subscript?_eq_some_iff.2 ⟨rfl, hi⟩⟩

/-- In front of what may follow it, a payload that is missing is not opened either. -/
theorem Payload.optional_eq {t t' rest : Text} {inner index : Option Text} (h : Payload t inner t')
    (hs : Subscript t' index (')' :: rest)) : optional '(' payload? t = some (inner, t') := by
  refine optional_eq_some_iff.2 ?_
  cases h with
  | missing =>
    refine .inr ⟨?_, rfl, rfl⟩
    cases hs <;> simp
  | given hi => exact .inl ⟨rfl, _, rfl, payload?_eq_some_iff.2 ⟨rfl, hi⟩⟩

theorem bracketed?_eq_some_iff_bracketed {t : Text} {f : Form} :
    bracketed? t = some f ↔ Bracketed t f := by
  rw [bracketed?_eq_some_iff]
  constructor
  · rintro ⟨t₀, t₁, t₂, rfl, h₁, h₂, h₃⟩
    obtain ⟨rfl, hw⟩ := word?_eq_some_iff.1 h₁
    exact .mk hw (payload_of_optional h₂) (subscript_of_optional h₃)
  · rintro ⟨hw, hp, hs⟩
    exact ⟨_, _, _, rfl, word?_eq_some_iff.2 ⟨rfl, hw⟩, hp.optional_eq hs, hs.optional_eq⟩

theorem named?_eq_some_iff {t : Text} {f : Form} : named? t = some f ↔ Named t f := by
  constructor
  · intro h
    obtain ⟨⟨cls, t₁⟩, h₁, h₂⟩ := Option.bind_eq_some_iff.1 h
    obtain ⟨rfl, hw⟩ := word?_eq_some_iff.1 h₁
    simp only at h₂
    split at h₂
    · rename_i inner rest hp
      cases h₂
      obtain ⟨rfl, hi⟩ := payload?_eq_some_iff.1 hp
      exact .full hw hi
    · rename_i hp
      cases h₂
      exact .bare hw (payload?_eq_none_iff.1 hp)
  · intro h
    cases h with
    | full hw hi =>
      simp only [named?, word?_eq_some_iff.2 ⟨rfl, hw⟩, payload?_eq_some_iff.2 ⟨rfl, hi⟩,
        Option.bind_eq_bind, Option.bind_some]
    | bare hw hp =>
      simp only [named?, word?_eq_some_iff.2 ⟨rfl, hw⟩, payload?_eq_none_iff.2 hp,
        Option.bind_eq_bind, Option.bind_some]

theorem selectAlias?_eq_some_iff {t : Text} {f : Form} :
    selectAlias? t = some f ↔ SelectAlias t f := by
  constructor
  · intro h
    unfold selectAlias? at h
    split at h
    · rename_i t
      split at h
      · cases h
      · rename_i hne
        cases h
        obtain ⟨ht, hpath, hrest⟩ := takeWhile_dropWhile_iff (p := isAliasChar).1 ⟨rfl, rfl⟩
        have := SelectAlias.mk hne hpath hrest
        rwa [← ht] at this
    · cases h
  · rintro ⟨hne, hpath, hrest⟩
    obtain ⟨htake, hdrop⟩ := takeWhile_dropWhile_iff.2 ⟨rfl, hpath, hrest⟩
    simp only [selectAlias?, htake, hdrop]
    rfl

/-! ### One form at most -/

theorem Bracketed.head? {t : Text} {f : Form} (h : Bracketed t f) : t.head? = some '(' := by
  cases h
  rfl

theorem Named.head? {t : Text} {f : Form} (h : Named t f) :
    ∃ c, t.head? = some c ∧ isWordStart c = true := by
  have hword : ∀ {cls rest : Text}, IsWord cls rest →
      ∃ c, (cls ++ rest).head? = some c ∧ isWordStart c = true := by
    rintro cls rest ⟨⟨c, hc, hs⟩, -, -⟩
    obtain ⟨cs, rfl⟩ := List.head?_eq_some_iff.1 hc
    exact ⟨c, rfl, hs⟩
  cases h with
  | full hw _ => exact hword hw
  | bare hw _ => exact hword hw

theorem SelectAlias.head? {t : Text} {f : Form} (h : SelectAlias t f) : t.head? = some '@' := by
  cases h
  rfl

/-- The three alternatives start with different characters. -/
theorem not_bracketed_and_named {t : Text} {f g : Form} (hf : Bracketed t f) : ¬ Named t g := by
  intro hg
  obtain ⟨c, hc, hs⟩ := hg.head?
  rw [hf.head?] at hc
  cases hc
  exact absurd hs (by decide)

theorem not_bracketed_and_selectAlias {t : Text} {f g : Form} (hf : Bracketed t f) :
    ¬ SelectAlias t g := by
  intro hg
  have := hf.head?.symm.trans hg.head?
  exact absurd this (by decide)

theorem not_named_and_selectAlias {t : Text} {f g : Form} (hf : Named t f) :
    ¬ SelectAlias t g := by
  intro hg
  obtain ⟨c, hc, hs⟩ := hf.head?
  rw [hg.head?] at hc
  cases hc
  exact absurd hs (by decide)

/-- A text has one form at most. -/
theorem Matches.unique {t : Text} {f g : Form} (hf : Matches t f) (hg : Matches t g) : f = g := by
  rcases hf with hf | hf | hf <;> rcases hg with hg | hg | hg
  · rw [← bracketed?_eq_some_iff_bracketed] at hf hg
    exact Option.some.inj (hf.symm.trans hg)
  · exact absurd hg (not_bracketed_and_named hf)
  · exact absurd hg (not_bracketed_and_selectAlias hf)
  · exact absurd hf (not_bracketed_and_named hg)
  · rw [← named?_eq_some_iff] at hf hg
    exact Option.some.inj (hf.symm.trans hg)
  · exact absurd hg (not_named_and_selectAlias hf)
  · exact absurd hf (not_bracketed_and_selectAlias hg)
  · exact absurd hf (not_named_and_selectAlias hg)
  · rw [← selectAlias?_eq_some_iff] at hf hg
    exact Option.some.inj (hf.symm.trans hg)

theorem Matches.head?_ne_dollar {t : Text} {f : Form} (h : Matches t f) : t.head? ≠ some '$' := by
  rcases h with h | h | h
  · rw [h.head?]
    decide
  · obtain ⟨c, hc, hs⟩ := h.head?
    rw [hc]
    rintro ⟨⟩
    exact absurd hs (by decide)
  · rw [h.head?]
    decide

theorem Matches.isWord_cls {t : Text} {f : Form} (h : Matches t f) :
    ∃ rest, IsWord f.cls rest := by
  rcases h with h | h | h
  · obtain ⟨hw, -, -⟩ := h
    exact ⟨_, hw⟩
  · cases h with
    | full hw _ => exact ⟨_, hw⟩
    | bare hw _ => exact ⟨_, hw⟩
  · cases h
    have hchars : ∀ c ∈ ['s', 'e', 'l'], isWordChar c = true := List.all_eq_true.1 rfl
    exact ⟨[], ⟨'s', rfl, rfl⟩, hchars, fun c hc => by cases hc⟩

theorem matches_iff_exists_reader {t : Text} {f : Form} :
    Matches t f ↔ ∃ read? ∈ [bracketed?, named?, selectAlias?], read? t = some f := by
  simp [Matches, bracketed?_eq_some_iff_bracketed, named?_eq_some_iff, selectAlias?_eq_some_iff]

/-- The readers may be tried in any order. -/
theorem findSome?_readers {readers : List (Text → Option Form)}
    (h : readers.Perm [bracketed?, named?, selectAlias?]) {t : Text} {f : Form} :
    readers.findSome? (· t) = some f ↔ Matches t f := by
  have hread : ∀ {g}, (∃ read? ∈ readers, read? t = some g) ↔ Matches t g := by
    intro g
    rw [matches_iff_exists_reader]
    simp only [h.mem_iff]
  constructor
  · intro hf
    exact hread.1 (List.exists_of_findSome?_eq_some hf)
  · intro hf
    obtain ⟨read?, hm, hr⟩ := hread.2 hf
    cases hg : readers.findSome? (· t) with
    | none =>
      have := List.findSome?_eq_none_iff.1 hg read? hm
      rw [hr] at this
      cases this
    | some g =>
      have hg' := hread.1 (List.exists_of_findSome?_eq_some hg)
      rw [hg'.unique hf]

theorem form?_eq_findSome? (t : Text) :
    form? t = [bracketed?, named?, selectAlias?].findSome? (· t) := by
  unfold form?
  cases h₁ : bracketed? t <;> cases h₂ : named? t <;> cases h₃ : selectAlias? t <;>
    simp [h₁, h₂, h₃]

/-- What is read behind a dollar sign is the form that stands there. -/
theorem form?_eq_some_iff {t : Text} {f : Form} : form? t = some f ↔ Matches t f := by
  rw [form?_eq_findSome?]
  exact findSome?_readers (.refl _)

/-! ### Dollar signs that count -/

/-- At offset `p` stands the last one of a run of dollar signs of odd length, and `after` behind
it. -/
def DollarAt (t : Text) (p : Nat) (after : Text) : Prop :=
  ∃ front n, t = front ++ (List.replicate n '$' ++ after) ∧ n % 2 = 1 ∧
    EndsPlain front ∧ after.head? ≠ some '$' ∧ p + 1 = front.bytes + n

theorem bytes_replicate_dollar (n : Nat) : Text.bytes (List.replicate n '$') = n := by
  induction n with
  | zero => rfl
  | succ n ih => rw [List.replicate_succ, Text.bytes_cons, ih, utf8Size_dollar, Nat.add_comm]

theorem DollarAt.exists_front {t after : Text} {p : Nat} (h : DollarAt t p after) :
    ∃ front, t = front ++ '$' :: after ∧ front.bytes = p := by
  obtain ⟨front, n, rfl, hn, -, -, hp⟩ := h
  obtain ⟨m, rfl⟩ : ∃ m, n = m + 1 := ⟨n - 1, by omega⟩
  refine ⟨front ++ List.replicate m '$', ?_, ?_⟩
  · rw [List.replicate_succ', List.append_assoc, List.append_assoc, List.singleton_append]
  · rw [Text.bytes_append, bytes_replicate_dollar]
    omega

theorem EndsPlain.append {t : Text} (h : EndsPlain t) (hne : t ≠ []) (pre : Text) :
    EndsPlain (pre ++ t) := by
  intro he
  rw [List.getLast?_append, List.getLast?_eq_some_getLast hne, Option.some_or] at he
  exact h (by rw [List.getLast?_eq_some_getLast hne, he])

/-- A cut that does not go through a run leaves the dollar signs behind it as they are. -/
theorem dollarAt_append {pre t after : Text} {p : Nat} (h : EndsPlain pre ∨ t.head? ≠ some '$') :
    DollarAt (pre ++ t) (pre.bytes + p) after ↔ DollarAt t p after := by
  constructor
  · rintro ⟨front, n, ht, hn, hfront, hafter, hp⟩
    rw [← List.append_assoc] at ht
    have hle : Text.bytes pre ≤ Text.bytes (front ++ List.replicate n '$') := by
      rw [Text.bytes_append, bytes_replicate_dollar]
      omega
    obtain ⟨g, hg, rfl⟩ := Text.exists_append_of_bytes_le ht hle
    have hbytes := congrArg Text.bytes hg
    rw [Text.bytes_append, Text.bytes_append, bytes_replicate_dollar] at hbytes
    rcases List.append_eq_append_iff.1 hg with ⟨run, rfl, hrun⟩ | ⟨front', rfl, rfl⟩
    · have hall : ∀ c ∈ run ++ g, c = '$' := fun c hc => List.eq_of_mem_replicate (hrun ▸ hc)
      cases run with
      | nil =>
        refine ⟨[], n, by rw [hrun]; rfl, hn, endsPlain_nil, hafter, ?_⟩
        rw [List.append_nil] at hp
        rw [Text.bytes_nil]
        omega
      | cons c run =>
        -- the run would go on behind the cut
        exfalso
        rcases h with h | h
        · refine h.of_append ?_
          rw [List.getLast?_eq_some_getLast (List.cons_ne_nil c run)]
          exact congrArg some (hall _ (List.mem_append_left g (List.getLast_mem _)))
        · cases g with
          | nil =>
            rw [Text.bytes_nil] at hbytes
            omega
          | cons d g => exact h (congrArg some (hall d (by simp)))
    · refine ⟨front', n, List.append_assoc .., hn, hfront.of_append, hafter, ?_⟩
      rw [Text.bytes_append] at hp
      omega
  · rintro ⟨front, n, rfl, hn, hfront, hafter, hp⟩
    refine ⟨pre ++ front, n, (List.append_assoc ..).symm, hn, ?_, hafter, ?_⟩
    · cases front with
      | nil =>
        rw [List.append_nil]
        refine h.resolve_right fun hne => hne ?_
        obtain ⟨m, rfl⟩ : ∃ m, n = m + 1 := ⟨n - 1, by omega⟩
        rfl
      | cons c front => exact hfront.append (List.cons_ne_nil c front) pre
    · rw [Text.bytes_append]
      omega

theorem dollarAt_plain {c : Char} (hc : c ≠ '$') {t after : Text} {q : Nat} :
    DollarAt (c :: t) q after ↔ ∃ p, q = c.utf8Size + p ∧ DollarAt t p after := by
  have hplain : EndsPlain [c] := fun h => hc (Option.some.inj h)
  have happend : ∀ p, DollarAt (c :: t) (c.utf8Size + p) after ↔ DollarAt t p after := by
    intro p
    exact @dollarAt_append [c] t after p (.inl hplain)
  constructor
  · intro h
    obtain ⟨p, rfl⟩ : ∃ p, q = c.utf8Size + p := by
      obtain ⟨front, n, ht, hn, -, -, hq⟩ := h
      cases front with
      | nil =>
        obtain ⟨m, rfl⟩ : ∃ m, n = m + 1 := ⟨n - 1, by omega⟩
        exact absurd (List.cons_eq_cons.1 ht).1 hc
      | cons d front =>
        obtain ⟨rfl, -⟩ := List.cons_eq_cons.1 ht
        rw [Text.bytes_cons] at hq
        exact ⟨q - c.utf8Size, by omega⟩
    exact ⟨p, rfl, (happend p).1 h⟩
  · rintro ⟨p, rfl, h⟩
    exact (happend p).2 h

/-- Two dollar signs in a row do not change what a run of them comes to. -/
theorem dollarAt_pair {t after : Text} {q : Nat} :
    DollarAt ('$' :: '$' :: t) q after ↔ ∃ p, q = 2 + p ∧ DollarAt t p after := by
  constructor
  · rintro ⟨front, n, ht, hn, hfront, hafter, hq⟩
    match front, n, ht with
    | [], 1, ht =>
      obtain ⟨-, rfl⟩ := List.cons_eq_cons.1 ht
      exact absurd rfl hafter
    | [], n + 2, ht =>
      obtain ⟨-, ht'⟩ := List.cons_eq_cons.1 ht
      obtain ⟨-, rfl⟩ := List.cons_eq_cons.1 ht'
      refine ⟨q - 2, ?_, [], n, rfl, by omega, endsPlain_nil, hafter, ?_⟩ <;>
        rw [Text.bytes_nil] at * <;> omega
    | [d], n, ht =>
      obtain ⟨rfl, -⟩ := List.cons_eq_cons.1 ht
      exact absurd rfl hfront
    | d :: e :: front, n, ht =>
      obtain ⟨rfl, ht'⟩ := List.cons_eq_cons.1 ht
      obtain ⟨rfl, rfl⟩ := List.cons_eq_cons.1 ht'
      simp only [Text.bytes_cons, utf8Size_dollar] at hq
      exact ⟨q - 2, by omega, front, n, rfl, hn, hfront.of_cons.of_cons, hafter, by omega⟩
  · rintro ⟨p, rfl, front, n, rfl, hn, hfront, hafter, hp⟩
    cases front with
    | nil =>
      refine ⟨[], n + 2, rfl, by omega, endsPlain_nil, hafter, ?_⟩
      rw [Text.bytes_nil] at *
      omega
    | cons c front =>
      refine ⟨'$' :: '$' :: c :: front, n, rfl, hn, ?_, hafter, ?_⟩
      · exact hfront.append (List.cons_ne_nil c front) ['$', '$']
      · simp only [Text.bytes_cons, utf8Size_dollar] at hp ⊢
        omega

/-- A dollar sign that no other one follows counts itself. -/
theorem dollarAt_lone {t after : Text} {q : Nat} (ht : t.head? ≠ some '$') :
    DollarAt ('$' :: t) q after ↔ (q = 0 ∧ after = t) ∨ ∃ p, q = 1 + p ∧ DollarAt t p after := by
  have happend : ∀ p, DollarAt ('$' :: t) (1 + p) after ↔ DollarAt t p after := by
    intro p
    exact @dollarAt_append ['$'] t after p (.inr ht)
  constructor
  · intro h
    cases q with
    | zero =>
      obtain ⟨front, n, he, hn, -, -, hq⟩ := h
      cases front with
      | nil =>
        obtain rfl : n = 1 := by
          rw [Text.bytes_nil] at hq
          omega
        exact .inl ⟨rfl, (List.cons_eq_cons.1 he).2.symm⟩
      | cons c front =>
        have := c.utf8Size_pos
        rw [Text.bytes_cons] at hq
        omega
    | succ q => exact .inr ⟨q, Nat.add_comm q 1, (happend q).1 (Nat.add_comm q 1 ▸ h)⟩
  · rintro (⟨rfl, rfl⟩ | ⟨p, rfl, h⟩)
    · exact ⟨[], 1, rfl, rfl, endsPlain_nil, ht, rfl⟩
    · exact (happend p).2 h

/-! ### The pass -/

/-- The grammar allows the match in a text that starts at `offset`: behind a dollar sign that counts
stands its form, and none of the matches given reaches over the dollar sign. -/
def Allowed (found : List PseudoVar) (offset : Nat) (t : Text) (v : PseudoVar) : Prop :=
  ∃ p used f, v = ⟨'$' :: used, f.cls, f.inner, f.index, offset + p⟩ ∧
    DollarAt t p (used ++ f.rest) ∧ Matches (used ++ f.rest) f ∧
    ∀ w ∈ found, w.offset < offset + p → w.offset + w.size ≤ offset + p

/-- The pass goes on behind `k` bytes that start no match. -/
theorem allowed_skip {found : List PseudoVar} {offset k : Nat} {t t' : Text} {v : PseudoVar}
    (h : ∀ q after f, Matches after f →
      (DollarAt t' q after ↔ ∃ p, q = k + p ∧ DollarAt t p after)) :
    Allowed found offset t' v ↔ Allowed found (offset + k) t v := by
  constructor
  · rintro ⟨q, used, f, hv, hd, hm, hw⟩
    obtain ⟨p, rfl, hp⟩ := (h q _ f hm).1 hd
    rw [← Nat.add_assoc] at hv hw
    exact ⟨p, used, f, hv, hp, hm, hw⟩
  · rintro ⟨p, used, f, hv, hd, hm, hw⟩
    rw [Nat.add_assoc] at hv hw
    exact ⟨k + p, used, f, hv, (h _ _ f hm).2 ⟨p, rfl, hd⟩, hm, hw⟩

/-- A match is allowed, and behind it the pass goes on with the text behind it. -/
theorem allowed_form {found : List PseudoVar} {offset : Nat} {used : Text} {f : Form}
    {v : PseudoVar} (ht : (used ++ f.rest).head? ≠ some '$') (hm : Matches (used ++ f.rest) f)
    (hused : EndsPlain used) (hfound : ∀ w ∈ found, offset + (1 + used.bytes) ≤ w.offset) :
    Allowed (⟨'$' :: used, f.cls, f.inner, f.index, offset⟩ :: found) offset
        ('$' :: (used ++ f.rest)) v ↔
      v = ⟨'$' :: used, f.cls, f.inner, f.index, offset⟩ ∨
        Allowed found (offset + (1 + used.bytes)) f.rest v := by
  have hcut : EndsPlain ('$' :: used) ∨ f.rest.head? ≠ some '$' := by
    cases used with
    | nil => exact .inr ht
    | cons c used => exact .inl (hused.append (List.cons_ne_nil c used) ['$'])
  have hbehind : ∀ p after, DollarAt ('$' :: (used ++ f.rest)) (1 + used.bytes + p) after ↔
      DollarAt f.rest p after := fun p after => dollarAt_append hcut
  constructor
  · rintro ⟨q, used', f', rfl, hd, hm', hw⟩
    cases q with
    | zero =>
      -- the dollar sign at the front: what stands behind it has one form only
      left
      rcases (dollarAt_lone ht).1 hd with ⟨-, he⟩ | ⟨p, hp, -⟩
      · obtain rfl : f' = f := (he ▸ hm').unique hm
        rw [List.append_cancel_right he]
        rfl
      · omega
    | succ q =>
      right
      obtain ⟨hhead, htail⟩ := List.forall_mem_cons.1 hw
      have hle : 1 + used.bytes ≤ q + 1 :=
        Nat.le_of_add_le_add_left (hhead (Nat.lt_add_of_pos_right (Nat.succ_pos q)))
      obtain ⟨p, hp⟩ := Nat.exists_eq_add_of_le hle
      rw [hp] at hd htail ⊢
      refine ⟨p, used', f', ?_, (hbehind p _).1 hd, hm', ?_⟩
      · rw [Nat.add_assoc offset]
      · rwa [Nat.add_assoc offset]
  · rintro (rfl | ⟨p, used', f', rfl, hd, hm', hw⟩)
    · refine ⟨0, used, f, rfl, (dollarAt_lone ht).2 (.inl ⟨rfl, rfl⟩), hm, ?_⟩
      refine List.forall_mem_cons.2 ⟨fun h => absurd h (Nat.lt_irrefl _), fun w hw h => ?_⟩
      have := hfound w hw
      omega
    · rw [Nat.add_assoc] at hw ⊢
      refine ⟨_, used', f', rfl, (hbehind p _).2 hd, hm', ?_⟩
      exact List.forall_mem_cons.2 ⟨fun _ => Nat.add_le_add_left (Nat.le_add_right ..) offset, hw⟩

/-- The pass finds what the grammar allows, and all of it. -/
theorem mem_scanFrom_iff {t : Text} {offset : Nat} {v : PseudoVar} :
    v ∈ scanFrom 0 offset t ↔ Allowed (scanFrom 0 offset t) offset t v := by
  induction t using scan_induction generalizing offset with
  | nil =>
    constructor
    · intro h
      cases h
    · rintro ⟨p, used, f, -, ⟨front, n, ht, hn, -⟩, -⟩
      obtain ⟨m, rfl⟩ : ∃ m, n = m + 1 := ⟨n - 1, by omega⟩
      simp [List.replicate_succ] at ht
  | plain c t hc ih =>
    rw [allowed_skip fun _ _ _ _ => dollarAt_plain hc, scanFrom_plain hc]
    exact ih
  | pair t ih =>
    rw [allowed_skip fun _ _ _ _ => dollarAt_pair, scanFrom_pair]
    exact ih
  | lone t ht hf ih =>
    have hskip : ∀ q after f, Matches after f →
        (DollarAt ('$' :: t) q after ↔ ∃ p, q = 1 + p ∧ DollarAt t p after) := by
      intro q after f hm
      rw [dollarAt_lone ht]
      refine or_iff_right ?_
      rintro ⟨-, rfl⟩
      rw [form?_eq_some_iff.2 hm] at hf
      cases hf
    rw [allowed_skip hskip, scanFrom_lone ht hf]
    exact ih
  | form used f ht hf hused ih =>
    have hfound : ∀ w ∈ scanFrom 0 (offset + (1 + used.bytes)) f.rest,
        offset + (1 + used.bytes) ≤ w.offset := fun w hw => (bounds_of_mem_scanFrom hw).1
    rw [scanFrom_form ht hf, Nat.add_assoc,
      allowed_form ht (form?_eq_some_iff.1 hf) hused hfound, List.mem_cons, ih]

/-! ### The grammar -/

theorem exists_mem_scan_iff {t : Text} {p : Nat} : (∃ v ∈ scan t, v.offset = p) ↔
    (∀ w ∈ scan t, w.offset < p → ¬ w.span.Contains p) ∧
      ∃ after f, DollarAt t p after ∧ Matches after f := by
  constructor
  · rintro ⟨v, hv, rfl⟩
    obtain ⟨p, used, f, rfl, hd, hm, hw⟩ := mem_scanFrom_iff.1 hv
    rw [Nat.zero_add] at hw ⊢
    refine ⟨fun w hmem hlt hc => ?_, _, f, hd, hm⟩
    exact absurd hc.2 (Nat.not_lt.2 (hw w hmem hlt))
  · rintro ⟨hw, after, f, hd, hm⟩
    obtain ⟨used, rfl, -⟩ := form?_reads (form?_eq_some_iff.2 hm)
    refine ⟨⟨'$' :: used, f.cls, f.inner, f.index, 0 + p⟩, ?_, Nat.zero_add p⟩
    refine mem_scanFrom_iff.2 ⟨p, used, f, rfl, hd, hm, fun w hmem hlt => ?_⟩
    rw [Nat.zero_add] at hlt ⊢
    exact Nat.not_lt.1 fun h => hw w hmem hlt ⟨hlt.le, h⟩

theorem reading_of_mem_scan {t : Text} {v : PseudoVar} (hv : v ∈ scan t) :
    ∃ used f, DollarAt t v.offset (used ++ f.rest) ∧ Matches (used ++ f.rest) f ∧
      v.matched = '$' :: used ∧ v.size = 1 + used.bytes ∧ v.cls = f.cls ∧ v.inner = f.inner ∧
      v.index = f.index ∧ v.isBare = f.inner.isNone := by
  obtain ⟨p, used, f, rfl, hd, hm, -⟩ := mem_scanFrom_iff.1 hv
  rw [Nat.zero_add]
  exact ⟨used, f, hd, hm, rfl, rfl, rfl, rfl, rfl, rfl⟩

/-- A payload that is not closed leaves the class alone, but nothing in brackets. -/
theorem matches_unclosed {cls rest : Text} (hw : IsWord cls ('(' :: rest))
    (hr : ∀ inner rest', IsPayload inner → rest ≠ inner ++ ')' :: rest') :
    Matches (cls ++ '(' :: rest) ⟨cls, none, none, '(' :: rest⟩ ∧
      ∀ f, ¬ Matches ('(' :: (cls ++ '(' :: rest)) f := by
  have hp : ∀ inner rest', IsPayload inner → '(' :: rest ≠ '(' :: (inner ++ ')' :: rest') :=
    fun inner rest' hi he => hr inner rest' hi (List.cons_eq_cons.1 he).2
  refine ⟨.inr (.inl (.bare hw hp)), ?_⟩
  rintro f (h | h | h)
  · obtain ⟨t₀, t₁, t₂, he, h₁, h₂, -⟩ :=
      bracketed?_eq_some_iff.1 (bracketed?_eq_some_iff_bracketed.2 h)
    cases he
    rw [word?_eq_some_iff.2 ⟨rfl, hw⟩] at h₁
    cases h₁
    rw [optional, List.head?_cons, if_pos rfl, payload?_eq_none_iff.2 hp] at h₂
    cases h₂
  · obtain ⟨c, hc, hs⟩ := h.head?
    cases hc
    exact absurd hs (by decide)
  · have hc := Option.some.inj h.head?
    exact absurd hc (by decide)

/-- **The grammar of the scanner.**  A match starts at an offset exactly if no earlier match reaches
over it, it is that of the last dollar sign of a run of odd length, and one of the forms stands
behind the dollar sign.  What is reported is that form.  The alternatives exclude one another, so
they may be tried in any order.  A payload that is not closed leaves the class alone if there are no
brackets, and nothing at all in brackets. -/
theorem scan_spec (t : Text) :
    (∀ p, (∃ v ∈ scan t, v.offset = p) ↔
      (∀ w ∈ scan t, w.offset < p → ¬ w.span.Contains p) ∧
        ∃ after f, DollarAt t p after ∧ Matches after f) ∧
    (∀ v ∈ scan t, ∃ used f, DollarAt t v.offset (used ++ f.rest) ∧ Matches (used ++ f.rest) f ∧
      v.matched = '$' :: used ∧ v.size = 1 + used.bytes ∧ v.cls = f.cls ∧ v.inner = f.inner ∧
      v.index = f.index ∧ v.isBare = f.inner.isNone) ∧
    (∀ after f g, (Bracketed after f → ¬ Named after g) ∧
      (Bracketed after f → ¬ SelectAlias after g) ∧ (Named after f → ¬ SelectAlias after g) ∧
      (Matches after f → Matches after g → f = g)) ∧
    (∀ readers : List (Text → Option Form), readers.Perm [bracketed?, named?, selectAlias?] →
      ∀ after, readers.findSome? (· after) = form? after) ∧
    (∀ cls rest, IsWord cls ('(' :: rest) →
      (∀ inner rest', IsPayload inner → rest ≠ inner ++ ')' :: rest') →
        Matches (cls ++ '(' :: rest) ⟨cls, none, none, '(' :: rest⟩ ∧
          ∀ f, ¬ Matches ('(' :: (cls ++ '(' :: rest)) f) := by
  refine ⟨fun p => exists_mem_scan_iff, fun v => reading_of_mem_scan, fun after f g => ?_,
    fun readers hr after => ?_, fun cls rest => matches_unclosed⟩
  · exact ⟨not_bracketed_and_named, not_bracketed_and_selectAlias, not_named_and_selectAlias,
      Matches.unique⟩
  · ext f
    rw [findSome?_readers hr, form?_eq_some_iff]

/-- Behind an escaped dollar sign stands a form, and a payload that is not closed leaves the class
alone. -/
theorem scan_spec_unclosed :
    (∃ v ∈ scan "$$$(a(b)[0])$f(g".toList, v.offset = 2) ∧
      (∃ after f, DollarAt "$$$(a(b)[0])$f(g".toList 2 after ∧ Matches after f) ∧
      IsWord ['f'] ['(', 'g'] ∧
      (∀ inner rest', IsPayload inner → ['g'] ≠ inner ++ ')' :: rest') ∧
      Matches ['f', '(', 'g'] ⟨['f'], none, none, ['(', 'g']⟩ ∧
      ∀ f, ¬ Matches ['(', 'f', '(', 'g'] f := by
  obtain ⟨hstarts, -, -, -, hunclosed⟩ := scan_spec "$$$(a(b)[0])$f(g".toList
  have hfound : ∃ v ∈ scan "$$$(a(b)[0])$f(g".toList, v.offset = 2 := by decide
  have hword : IsWord ['f'] ['(', 'g'] :=
    ⟨⟨'f', rfl, rfl⟩, List.forall_mem_singleton.2 rfl, fun c hc => by cases hc; rfl⟩
  have hopen : ∀ inner rest', IsPayload inner → ['g'] ≠ inner ++ ')' :: rest' := by
    intro inner rest' _ he
    have hm : ')' ∈ ['g'] := he ▸ List.mem_append_right inner List.mem_cons_self
    exact absurd hm (by decide)
  obtain ⟨hbare, hnone⟩ := hunclosed ['f'] ['g'] hword hopen
  exact ⟨hfound, ((hstarts 2).1 hfound).2, hword, hopen, hbare, hnone⟩

/-- After an escaped dollar sign, a subscript, a payload with parentheses in it and one that is not
closed. -/
example : (scan "$$$(a(b)[0])$c(d(e))$f(g".toList).map (fun v => (v.offset, v.key)) =
    [(2, "a:b"), (12, "c:d(e)"), (20, "f")] := by decide

end RouteScript.PseudoVar
