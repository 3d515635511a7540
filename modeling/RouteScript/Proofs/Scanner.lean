import Mathlib.Data.List.TakeWhile
import RouteScript.Proofs.Offsets
import RouteScript.PseudoVar.Scanner

/-!
# What the scanner finds

The scanner goes over a text once and passes over each match as a whole, so the matches follow one
another.  A form that can be read can still be read when more text follows, though it may then reach
further.

* `scan_induction`: induction along the pass.
* `bounds_of_mem_scanFrom`, `pairwise_scanFrom`: matches lie in the text, are not empty and follow
  one another.
* `isSome_form?_append`: text that follows takes no form away.
* `exists_scan_overlap`: where something is found in a part of a text, it overlaps a match of the
  whole.
-/

namespace RouteScript.PseudoVar

/-! ### What a form reads -/

/-- The text does not end with a dollar sign. -/
def EndsPlain (t : Text) : Prop := t.getLast? ≠ some '$'

theorem endsPlain_nil : EndsPlain [] := by
  intro h
  cases h

theorem endsPlain_concat (t : Text) {c : Char} (hc : c ≠ '$') : EndsPlain (t ++ [c]) := by
  intro h
  rw [List.getLast?_concat] at h
  exact hc (Option.some.inj h)

theorem endsPlain_of_forall {t : Text} (h : ∀ c ∈ t, c ≠ '$') : EndsPlain t :=
  fun he => h '$' (List.mem_of_getLast? he) rfl

theorem EndsPlain.of_append {s t : Text} (h : EndsPlain (s ++ t)) : EndsPlain t := by
  intro ht
  refine h ?_
  rw [List.getLast?_append, ht]
  rfl

theorem EndsPlain.of_cons {c : Char} {t : Text} (h : EndsPlain (c :: t)) : EndsPlain t :=
  EndsPlain.of_append (s := [c]) h

theorem ne_dollar_of_isWordChar {c : Char} (h : isWordChar c = true) : c ≠ '$' := by
  rintro rfl
  exact absurd h (by decide)

theorem ne_dollar_of_isAliasChar {c : Char} (h : isAliasChar c = true) : c ≠ '$' := by
  rintro rfl
  exact absurd h (by decide)

theorem isWordChar_of_isWordStart {c : Char} (h : isWordStart c = true) : isWordChar c = true := by
  simp only [isWordStart, isWordChar, Bool.or_eq_true] at *
  tauto

theorem word?_eq_some {t w rest : Text} (h : word? t = some (w, rest)) :
    t = w ++ rest ∧ EndsPlain w := by
  cases t with
  | nil => cases h
  | cons c t =>
    rw [word?] at h
    split at h
    · rename_i hc
      cases h
      refine ⟨by rw [List.cons_append, List.takeWhile_append_dropWhile], ?_⟩
      refine endsPlain_of_forall fun x hx => ?_
      rcases List.mem_cons.1 hx with rfl | hx
      · exact ne_dollar_of_isWordChar (isWordChar_of_isWordStart hc)
      · exact ne_dollar_of_isWordChar (List.mem_takeWhile_imp hx)
    · cases h

theorem closing?_eq_some {depth : Nat} {t inner rest : Text}
    (h : closing? depth t = some (inner, rest)) : t = inner ++ ')' :: rest := by
  induction t generalizing depth inner with
  | nil => cases h
  | cons c t ih =>
    rw [closing?.eq_def] at h
    simp only at h
    split at h
    · rename_i hc
      cases depth with
      | zero =>
        cases h
        rw [hc, List.nil_append]
      | succ depth =>
        obtain ⟨⟨inner', rest'⟩, ht, he⟩ := Option.map_eq_some_iff.1 h
        cases he
        rw [ih ht, List.cons_append]
    · obtain ⟨⟨inner', rest'⟩, ht, he⟩ := Option.map_eq_some_iff.1 h
      cases he
      rw [ih ht, List.cons_append]

theorem payload?_eq_some {t inner rest : Text} (h : payload? t = some (inner, rest)) :
    t = '(' :: inner ++ ')' :: rest := by
  unfold payload? at h
  split at h
  · rw [closing?_eq_some h, List.cons_append]
  · cases h

theorem subscript?_eq_some {t index rest : Text} (h : subscript? t = some (index, rest)) :
    ∃ c, t = '[' :: index ++ c :: rest := by
  unfold subscript? at h
  split at h
  · rename_i t
    split at h
    · rename_i c _ hd
      cases h
      refine ⟨c, ?_⟩
      rw [List.cons_append, ← hd, List.takeWhile_append_dropWhile]
    · cases h
  · cases h

theorem optional_eq_some {opening : Char} {read? : Text → Option (Text × Text)} {t rest : Text}
    {part : Option Text} (hread : ∀ {t p r}, read? t = some (p, r) → ∃ used, t = used ++ r)
    (h : optional opening read? t = some (part, rest)) : ∃ used, t = used ++ rest := by
  unfold optional at h
  split at h
  · obtain ⟨⟨p, r⟩, ht, he⟩ := Option.map_eq_some_iff.1 h
    cases he
    exact hread ht
  · cases h
    exact ⟨[], rfl⟩

theorem optional_payload?_eq_some {t rest : Text} {part : Option Text}
    (h : optional '(' payload? t = some (part, rest)) : ∃ used, t = used ++ rest := by
  refine optional_eq_some (fun {t p r} hp => ⟨'(' :: p ++ [')'], ?_⟩) h
  rw [payload?_eq_some hp, List.append_assoc, List.singleton_append]

theorem optional_subscript?_eq_some {t rest : Text} {part : Option Text}
    (h : optional '[' subscript? t = some (part, rest)) : ∃ used, t = used ++ rest := by
  refine optional_eq_some (fun {t p r} hs => ?_) h
  obtain ⟨c, hc⟩ := subscript?_eq_some hs
  refine ⟨'[' :: p ++ [c], ?_⟩
  rw [hc, List.append_assoc, List.singleton_append]

theorem bracketed?_eq_some_iff {t : Text} {f : Form} :
    bracketed? t = some f ↔ ∃ t₀ t₁ t₂, t = '(' :: t₀ ∧ word? t₀ = some (f.cls, t₁) ∧
      optional '(' payload? t₁ = some (f.inner, t₂) ∧
      optional '[' subscript? t₂ = some (f.index, ')' :: f.rest) := by
  constructor
  · intro h
    unfold bracketed? at h
    split at h
    · rename_i t₀
      obtain ⟨⟨cls, t₁⟩, h₁, h⟩ := Option.bind_eq_some_iff.1 h
      obtain ⟨⟨inner, t₂⟩, h₂, h⟩ := Option.bind_eq_some_iff.1 h
      obtain ⟨⟨index, t₃⟩, h₃, h⟩ := Option.bind_eq_some_iff.1 h
      simp only at h
      split at h
      · cases h
        exact ⟨t₀, t₁, t₂, rfl, h₁, h₂, h₃⟩
      · cases h
    · cases h
  · rintro ⟨t₀, t₁, t₂, rfl, h₁, h₂, h₃⟩
    simp only [bracketed?, h₁, h₂, h₃, Option.bind_eq_bind, Option.bind_some]

theorem form?_cases {t : Text} {f : Form} (h : form? t = some f) :
    bracketed? t = some f ∨ named? t = some f ∨ selectAlias? t = some f := by
  unfold form? at h
  cases hb : bracketed? t with
  | some g =>
    rw [hb] at h
    exact .inl h
  | none =>
    rw [hb] at h
    cases hn : named? t with
    | some g =>
      rw [hn] at h
      exact .inr (.inl h)
    | none =>
      rw [hn] at h
      exact .inr (.inr h)

theorem bracketed?_reads {t : Text} {f : Form} (h : bracketed? t = some f) :
    ∃ used, t = used ++ f.rest ∧ EndsPlain used := by
  obtain ⟨t₀, t₁, t₂, rfl, h₁, h₂, h₃⟩ := bracketed?_eq_some_iff.1 h
  obtain ⟨rfl, -⟩ := word?_eq_some h₁
  obtain ⟨u₁, rfl⟩ := optional_payload?_eq_some h₂
  obtain ⟨u₂, rfl⟩ := optional_subscript?_eq_some h₃
  refine ⟨'(' :: f.cls ++ u₁ ++ u₂ ++ [')'], by simp, endsPlain_concat _ (by decide)⟩

theorem named?_reads {t : Text} {f : Form} (h : named? t = some f) :
    ∃ used, t = used ++ f.rest ∧ EndsPlain used := by
  obtain ⟨⟨cls, t₁⟩, h₁, h₂⟩ := Option.bind_eq_some_iff.1 h
  obtain ⟨rfl, hcls⟩ := word?_eq_some h₁
  simp only at h₂
  split at h₂
  · rename_i inner rest hp
    cases h₂
    refine ⟨cls ++ '(' :: inner ++ [')'], ?_, endsPlain_concat _ (by decide)⟩
    rw [payload?_eq_some hp]
    simp
  · cases h₂
    exact ⟨cls, rfl, hcls⟩

theorem selectAlias?_reads {t : Text} {f : Form} (h : selectAlias? t = some f) :
    ∃ used, t = used ++ f.rest ∧ EndsPlain used := by
  unfold selectAlias? at h
  split at h
  · rename_i t
    split at h
    · cases h
    · cases h
      refine ⟨'@' :: t.takeWhile isAliasChar, ?_, ?_⟩
      · rw [List.cons_append, List.takeWhile_append_dropWhile]
      · refine endsPlain_of_forall fun c hc => ?_
        rcases List.mem_cons.1 hc with rfl | hc
        · decide
        · exact ne_dollar_of_isAliasChar (List.mem_takeWhile_imp hc)
  · cases h

/-- A form is read from the front of the text, and the last character of it is no dollar sign. -/
theorem form?_reads {t : Text} {f : Form} (h : form? t = some f) :
    ∃ used, t = used ++ f.rest ∧ EndsPlain used := by
  rcases form?_cases h with h | h | h
  · exact bracketed?_reads h
  · exact named?_reads h
  · exact selectAlias?_reads h

/-! ### More text behind a form -/

theorem takeWhile_dropWhile_append {p : Char → Bool} {t : Text} (h : t.dropWhile p ≠ [])
    (post : Text) :
    (t ++ post).takeWhile p = t.takeWhile p ∧ (t ++ post).dropWhile p = t.dropWhile p ++ post := by
  induction t with
  | nil => exact absurd rfl h
  | cons c t ih =>
    by_cases hc : p c = true
    · rw [List.dropWhile_cons_of_pos hc] at h
      have := ih h
      simp only [List.cons_append, List.takeWhile_cons_of_pos hc, List.dropWhile_cons_of_pos hc,
        this, and_self]
    · simp only [List.cons_append, List.takeWhile_cons_of_neg hc, List.dropWhile_cons_of_neg hc,
        and_self]

theorem word?_append {t w rest : Text} (h : word? t = some (w, rest)) (hr : rest ≠ [])
    (post : Text) : word? (t ++ post) = some (w, rest ++ post) := by
  cases t with
  | nil => cases h
  | cons c t =>
    rw [word?] at h
    split at h
    · rename_i hc
      cases h
      obtain ⟨ht, hd⟩ := takeWhile_dropWhile_append hr post
      rw [List.cons_append, word?, if_pos hc, ht, hd]
    · cases h

theorem closing?_append {depth : Nat} {t inner rest : Text}
    (h : closing? depth t = some (inner, rest)) (post : Text) :
    closing? depth (t ++ post) = some (inner, rest ++ post) := by
  induction t generalizing depth inner with
  | nil => cases h
  | cons c t ih =>
    rw [closing?.eq_def] at h
    rw [List.cons_append, closing?.eq_def]
    simp only at h ⊢
    split at h
    · rename_i hc
      rw [if_pos hc]
      cases depth with
      | zero =>
        cases h
        rfl
      | succ depth =>
        obtain ⟨⟨inner', rest'⟩, ht, he⟩ := Option.map_eq_some_iff.1 h
        cases he
        simp only [ih ht, Option.map_some]
    · rename_i hc
      obtain ⟨⟨inner', rest'⟩, ht, he⟩ := Option.map_eq_some_iff.1 h
      cases he
      rw [if_neg hc, ih ht, Option.map_some]

theorem payload?_append {t inner rest : Text} (h : payload? t = some (inner, rest)) (post : Text) :
    payload? (t ++ post) = some (inner, rest ++ post) := by
  unfold payload? at h
  split at h
  · exact closing?_append h post
  · cases h

theorem subscript?_append {t index rest : Text} (h : subscript? t = some (index, rest))
    (post : Text) : subscript? (t ++ post) = some (index, rest ++ post) := by
  unfold subscript? at h
  split at h
  · rename_i t
    split at h
    · rename_i c _ hd
      cases h
      obtain ⟨ht, hd'⟩ := takeWhile_dropWhile_append (by rw [hd]; exact List.cons_ne_nil _ _) post
      rw [List.cons_append, subscript?, hd', hd, ht]
      rfl
    · cases h
  · cases h

theorem optional_append {opening : Char} {read? : Text → Option (Text × Text)} {t rest : Text}
    {part : Option Text} {post : Text}
    (hread : ∀ {p r}, read? t = some (p, r) → read? (t ++ post) = some (p, r ++ post))
    (h : optional opening read? t = some (part, rest)) (hne : t ≠ []) :
    optional opening read? (t ++ post) = some (part, rest ++ post) := by
  have hhead : (t ++ post).head? = t.head? := List.head?_append_of_ne_nil _ hne
  unfold optional at h ⊢
  rw [hhead]
  split at h
  · rename_i ho
    obtain ⟨⟨p, r⟩, ht, he⟩ := Option.map_eq_some_iff.1 h
    cases he
    rw [if_pos ho, hread ht, Option.map_some]
  · rename_i ho
    cases h
    rw [if_neg ho]

theorem bracketed?_append {t : Text} {f : Form} (h : bracketed? t = some f) (post : Text) :
    bracketed? (t ++ post) = some { f with rest := f.rest ++ post } := by
  obtain ⟨t₀, t₁, t₂, rfl, h₁, h₂, h₃⟩ := bracketed?_eq_some_iff.1 h
  have hne₂ : t₂ ≠ [] := by
    rintro rfl
    obtain ⟨u, hu⟩ := optional_subscript?_eq_some h₃
    simp at hu
  have hne₁ : t₁ ≠ [] := by
    rintro rfl
    obtain ⟨u, hu⟩ := optional_payload?_eq_some h₂
    exact hne₂ (List.nil_eq_append_iff.1 hu).2
  refine bracketed?_eq_some_iff.2 ⟨t₀ ++ post, t₁ ++ post, t₂ ++ post, rfl, ?_, ?_, ?_⟩
  · exact word?_append h₁ hne₁ post
  · exact optional_append (payload?_append · post) h₂ hne₁
  · exact optional_append (subscript?_append · post) h₃ hne₂

theorem isSome_form? (t : Text) : (form? t).isSome =
    ((bracketed? t).isSome || (named? t).isSome || (selectAlias? t).isSome) := by
  unfold form?
  cases bracketed? t <;> cases named? t <;> rfl

theorem isSome_named? (t : Text) : (named? t).isSome = (word? t).isSome := by
  unfold named?
  cases word? t with
  | none => rfl
  | some r =>
    simp only [Option.bind_eq_bind, Option.bind_some]
    split <;> rfl

/-- Text that follows takes no form away. -/
theorem isSome_form?_append {t : Text} (h : (form? t).isSome = true) (post : Text) :
    (form? (t ++ post)).isSome = true := by
  simp only [isSome_form?, isSome_named?, Bool.or_eq_true] at h ⊢
  rcases h with (h | h) | h
  · obtain ⟨f, hf⟩ := Option.isSome_iff_exists.1 h
    rw [bracketed?_append hf]
    exact .inl (.inl rfl)
  · cases t with
    | nil => cases h
    | cons c t =>
      refine .inl (.inr ?_)
      rw [word?] at h
      rw [List.cons_append, word?]
      split at h
      · rename_i hc
        rw [if_pos hc]
        rfl
      · cases h
  · refine .inr ?_
    unfold selectAlias? at h
    split at h
    · rename_i t
      split at h
      · cases h
      · rename_i hne
        cases t with
        | nil => exact absurd rfl hne
        | cons c t =>
          have hc : isAliasChar c = true := by
            by_contra hc
            exact hne (List.takeWhile_cons_of_neg hc)
          rw [List.cons_append, List.cons_append, selectAlias?, List.takeWhile_cons_of_pos hc]
          rfl
    · cases h

/-! ### One pass over the text -/

theorem utf8Size_dollar : '$'.utf8Size = 1 := rfl

theorem scanFrom_append (used rest : Text) (offset : Nat) :
    scanFrom used.length offset (used ++ rest) = scanFrom 0 (offset + used.bytes) rest := by
  induction used generalizing offset with
  | nil => rfl
  | cons c used ih =>
    rw [List.length_cons, List.cons_append, scanFrom, ih, Text.bytes_cons, Nat.add_assoc]

theorem scanFrom_plain {c : Char} (hc : c ≠ '$') (offset : Nat) (t : Text) :
    scanFrom 0 offset (c :: t) = scanFrom 0 (offset + c.utf8Size) t := by
  rw [scanFrom, if_neg hc]

theorem scanFrom_pair (offset : Nat) (t : Text) :
    scanFrom 0 offset ('$' :: '$' :: t) = scanFrom 0 (offset + 2) t := by
  rw [scanFrom, if_pos rfl, List.head?_cons, if_pos rfl, scanFrom]
  rfl

theorem scanFrom_lone {t : Text} (ht : t.head? ≠ some '$') (hf : form? t = none) (offset : Nat) :
    scanFrom 0 offset ('$' :: t) = scanFrom 0 (offset + 1) t := by
  rw [scanFrom, if_pos rfl, if_neg ht, hf]

theorem scanFrom_form {used : Text} {f : Form} (ht : (used ++ f.rest).head? ≠ some '$')
    (hf : form? (used ++ f.rest) = some f) (offset : Nat) :
    scanFrom 0 offset ('$' :: (used ++ f.rest)) = ⟨'$' :: used, f.cls, f.inner, f.index, offset⟩ ::
      scanFrom 0 (offset + 1 + used.bytes) f.rest := by
  have hlen : (used ++ f.rest).length - f.rest.length = used.length := by
    rw [List.length_append, Nat.add_sub_cancel]
  rw [scanFrom, if_pos rfl, if_neg ht, hf]
  simp only [hlen, List.take_left, scanFrom_append]

/-- Induction along the pass: a plain character, a pair of dollar signs, a lone one, or a match. -/
theorem scan_induction {motive : Text → Prop} (nil : motive [])
    (plain : ∀ c t, c ≠ '$' → motive t → motive (c :: t))
    (pair : ∀ t, motive t → motive ('$' :: '$' :: t))
    (lone : ∀ t, t.head? ≠ some '$' → form? t = none → motive t → motive ('$' :: t))
    (form : ∀ used f, (used ++ f.rest).head? ≠ some '$' → form? (used ++ f.rest) = some f →
      EndsPlain used → motive f.rest → motive ('$' :: (used ++ f.rest))) (t : Text) : motive t := by
  induction hn : t.length using Nat.strongRecOn generalizing t with
  | ind n ih =>
    subst hn
    cases t with
    | nil => exact nil
    | cons c t =>
      by_cases hc : c = '$'
      · subst hc
        by_cases ht : t.head? = some '$'
        · obtain ⟨t, rfl⟩ := List.head?_eq_some_iff.1 ht
          exact pair t (ih _ (by simp only [List.length_cons]; omega) t rfl)
        · cases hf : form? t with
          | none => exact lone t ht hf (ih _ (Nat.lt_succ_self _) t rfl)
          | some f =>
            obtain ⟨used, rfl, hused⟩ := form?_reads hf
            refine form used f ht hf hused (ih _ ?_ f.rest rfl)
            simp only [List.length_cons, List.length_append]
            omega
      · exact plain c t hc (ih _ (Nat.lt_succ_self _) t rfl)

/-- Matches lie in the text and are not empty. -/
theorem bounds_of_mem_scanFrom {t : Text} {offset : Nat} {v : PseudoVar}
    (h : v ∈ scanFrom 0 offset t) :
    offset ≤ v.offset ∧ v.offset < v.offset + v.size ∧ v.offset + v.size ≤ offset + t.bytes := by
  induction t using scan_induction generalizing offset with
  | nil => cases h
  | plain c t hc ih =>
    rw [scanFrom_plain hc] at h
    have := ih h
    rw [Text.bytes_cons]
    omega
  | pair t ih =>
    rw [scanFrom_pair] at h
    have := ih h
    rw [Text.bytes_cons, Text.bytes_cons, utf8Size_dollar]
    omega
  | lone t ht hf ih =>
    rw [scanFrom_lone ht hf] at h
    have := ih h
    rw [Text.bytes_cons, utf8Size_dollar]
    omega
  | form used f ht hf hused ih =>
    rw [scanFrom_form ht hf] at h
    rw [Text.bytes_cons, Text.bytes_append, utf8Size_dollar]
    rcases List.mem_cons.1 h with rfl | h
    · simp only [size, Text.bytes_cons, utf8Size_dollar]
      omega
    · have := ih h
      omega

/-- Matches follow one another. -/
theorem pairwise_scanFrom (t : Text) (offset : Nat) :
    (scanFrom 0 offset t).Pairwise fun a b => a.offset + a.size ≤ b.offset := by
  induction t using scan_induction generalizing offset with
  | nil => exact .nil
  | plain c t hc ih =>
    rw [scanFrom_plain hc]
    exact ih _
  | pair t ih =>
    rw [scanFrom_pair]
    exact ih _
  | lone t ht hf ih =>
    rw [scanFrom_lone ht hf]
    exact ih _
  | form used f ht hf hused ih =>
    rw [scanFrom_form ht hf]
    refine .cons (fun v hv => ?_) (ih _)
    have := (bounds_of_mem_scanFrom hv).1
    simp only [size, Text.bytes_cons, utf8Size_dollar]
    omega

/-! ### A part of a text -/

/-- Some match in the text from `offset` on contains the place. -/
def Meets (place offset : Nat) (t : Text) : Prop :=
  ∃ v ∈ scanFrom 0 offset t, v.offset ≤ place ∧ place < v.offset + v.size

theorem Meets.plain {place offset : Nat} {c : Char} {t : Text} (hc : c ≠ '$')
    (h : Meets place (offset + c.utf8Size) t) : Meets place offset (c :: t) := by
  rw [Meets, scanFrom_plain hc]
  exact h

theorem Meets.pair {place offset : Nat} {t : Text} (h : Meets place (offset + 2) t) :
    Meets place offset ('$' :: '$' :: t) := by
  rw [Meets, scanFrom_pair]
  exact h

/-- Behind a dollar sign that is not doubled, the place is in a match, or the pass goes on at or in
front of it, behind a character that is no dollar sign or right behind this one. -/
theorem meets_dollar {place offset : Nat} {t : Text} (ht : t.head? ≠ some '$') (hp : offset < place)
    (h : ∀ used rest, t = used ++ rest → EndsPlain used → offset + 1 + used.bytes ≤ place →
      Meets place (offset + 1 + used.bytes) rest) : Meets place offset ('$' :: t) := by
  cases hf : form? t with
  | none =>
    obtain ⟨v, hv, hlo, hhi⟩ := h [] t rfl endsPlain_nil hp
    refine ⟨v, ?_, hlo, hhi⟩
    rwa [scanFrom_lone ht hf]
  | some f =>
    obtain ⟨used, rfl, hused⟩ := form?_reads hf
    by_cases hin : place < offset + 1 + used.bytes
    · refine ⟨_, by rw [scanFrom_form ht hf]; exact List.mem_cons_self, hp.le, ?_⟩
      simp only [size, Text.bytes_cons, utf8Size_dollar]
      omega
    · obtain ⟨v, hv, hlo, hhi⟩ := h used f.rest rfl hused (by omega)
      refine ⟨v, ?_, hlo, hhi⟩
      rw [scanFrom_form ht hf]
      exact List.mem_cons_of_mem _ hv

/-- In front of its first match a pass is in step with one that starts behind a character that is
no dollar sign. -/
theorem scanFrom_resume {used rest : Text} {offset : Nat} {v : PseudoVar} {vs : List PseudoVar}
    (h : scanFrom 0 offset (used ++ rest) = v :: vs) (hused : EndsPlain used)
    (hv : offset + used.bytes ≤ v.offset) : scanFrom 0 (offset + used.bytes) rest = v :: vs := by
  generalize ht : used ++ rest = t at h
  induction t using scan_induction generalizing used offset with
  | nil => cases h
  | plain c t hc ih =>
    cases used with
    | nil =>
      cases ht
      exact h
    | cons d used =>
      obtain ⟨rfl, ht'⟩ := List.cons_eq_cons.1 ht
      rw [scanFrom_plain hc] at h
      rw [Text.bytes_cons, ← Nat.add_assoc] at hv ⊢
      exact ih hused.of_cons hv ht' h
  | pair t ih =>
    match used, ht with
    | [], ht =>
      cases ht
      exact h
    | [d], ht =>
      -- no front part ends between the two dollar signs
      obtain ⟨rfl, -⟩ := List.cons_eq_cons.1 ht
      exact absurd rfl hused
    | d :: e :: used, ht =>
      obtain ⟨rfl, ht'⟩ := List.cons_eq_cons.1 ht
      obtain ⟨rfl, ht''⟩ := List.cons_eq_cons.1 ht'
      rw [scanFrom_pair] at h
      have hsize : offset + Text.bytes ('$' :: '$' :: used) = offset + 2 + Text.bytes used := by
        simp only [Text.bytes_cons, utf8Size_dollar]
        omega
      rw [hsize] at hv ⊢
      exact ih hused.of_cons.of_cons hv ht'' h
  | lone t hd hf ih =>
    cases used with
    | nil =>
      cases ht
      exact h
    | cons d used =>
      obtain ⟨rfl, ht'⟩ := List.cons_eq_cons.1 ht
      rw [scanFrom_lone hd hf] at h
      rw [Text.bytes_cons, ← Nat.add_assoc] at hv ⊢
      exact ih hused.of_cons hv ht' h
  | form read f hd hf _ ih =>
    cases used with
    | nil =>
      rw [← ht] at h
      exact h
    | cons d used =>
      rw [scanFrom_form hd hf] at h
      cases h
      have := d.utf8Size_pos
      simp only [Text.bytes_cons] at hv
      omega

theorem meets_form {t : Text} (ht : t.head? ≠ some '$') (hf : (form? t).isSome = true)
    (offset : Nat) : Meets offset offset ('$' :: t) := by
  obtain ⟨f, hf⟩ := Option.isSome_iff_exists.1 hf
  obtain ⟨used, rfl, -⟩ := form?_reads hf
  refine ⟨_, by rw [scanFrom_form ht hf]; exact List.mem_cons_self, le_rfl, ?_⟩
  simp only [size, Text.bytes_cons, utf8Size_dollar]
  omega

/-- More text behind a text hides its first match only under another one. -/
theorem meets_append {t : Text} {offset : Nat} {v : PseudoVar} {vs : List PseudoVar}
    (h : scanFrom 0 offset t = v :: vs) (post : Text) : Meets v.offset offset (t ++ post) := by
  induction hn : t.length using Nat.strongRecOn generalizing t offset with
  | ind n ih =>
    subst hn
    match t with
    | [] => cases h
    | c :: t =>
      by_cases hc : c = '$'
      swap
      · rw [scanFrom_plain hc] at h
        exact Meets.plain hc (ih _ (Nat.lt_succ_self _) h rfl)
      subst hc
      by_cases ht : t.head? = some '$'
      · obtain ⟨t, rfl⟩ := List.head?_eq_some_iff.1 ht
        rw [scanFrom_pair] at h
        exact Meets.pair (ih _ (by simp only [List.length_cons]; omega) h rfl)
      have hne : t ≠ [] := by
        rintro rfl
        cases h
      have ht' : (t ++ post).head? ≠ some '$' := by rwa [List.head?_append_of_ne_nil _ hne]
      cases hf : form? t with
      | none =>
        -- with more text the dollar sign may start a match; the pass goes on in step behind it
        rw [scanFrom_lone ht hf] at h
        have hv := bounds_of_mem_scanFrom (h ▸ List.mem_cons_self : v ∈ scanFrom 0 (offset + 1) t)
        refine meets_dollar ht' hv.1 fun used rest he hused hle => ?_
        obtain ⟨t, rfl, rfl⟩ := Text.exists_append_of_bytes_le he.symm (by omega)
        refine ih _ ?_ (scanFrom_resume h hused hle) rfl
        simp only [List.length_cons, List.length_append]
        omega
      | some f =>
        have hsome := isSome_form?_append (Option.isSome_of_eq_some hf) post
        obtain ⟨used, rfl, -⟩ := form?_reads hf
        rw [scanFrom_form ht hf] at h
        cases h
        exact meets_form ht' hsome offset

/-- Text around a text hides its first match only under another one, if no dollar sign stands in
front of it. -/
theorem meets_of_scanFrom {t : Text} {v : PseudoVar} {vs : List PseudoVar} (pre post : Text)
    (hpre : EndsPlain pre) {offset : Nat} (h : scanFrom 0 (offset + pre.bytes) t = v :: vs) :
    Meets v.offset offset (pre ++ (t ++ post)) := by
  induction hn : pre.length using Nat.strongRecOn generalizing pre offset with
  | ind n ih =>
    subst hn
    match pre with
    | [] => exact meets_append h post
    | c :: pre =>
      by_cases hc : c = '$'
      swap
      · rw [Text.bytes_cons, ← Nat.add_assoc] at h
        exact Meets.plain hc (ih _ (Nat.lt_succ_self _) pre hpre.of_cons h rfl)
      subst hc
      have hne : pre ≠ [] := by
        rintro rfl
        exact hpre rfl
      rw [Text.bytes_cons, utf8Size_dollar, ← Nat.add_assoc] at h
      by_cases ht : pre.head? = some '$'
      · obtain ⟨pre, rfl⟩ := List.head?_eq_some_iff.1 ht
        rw [Text.bytes_cons, utf8Size_dollar, ← Nat.add_assoc] at h
        refine Meets.pair (ih _ ?_ pre hpre.of_cons.of_cons h rfl)
        simp only [List.length_cons]
        omega
      have ht' : (pre ++ (t ++ post)).head? ≠ some '$' := by rwa [List.head?_append_of_ne_nil _ hne]
      have hv := bounds_of_mem_scanFrom (h ▸ List.mem_cons_self :
        v ∈ scanFrom 0 (offset + 1 + Text.bytes pre) t)
      refine meets_dollar ht' (by omega) fun used rest he hused hle => ?_
      -- a match that starts in front of the text ends there too, or inside the text
      rcases List.append_eq_append_iff.1 he with ⟨more, rfl, hrest⟩ | ⟨pre, rfl, rfl⟩
      · rw [Text.bytes_append, ← Nat.add_assoc] at hle ⊢
        obtain ⟨t, rfl, rfl⟩ := Text.exists_append_of_bytes_le hrest.symm (by omega)
        exact meets_append (scanFrom_resume h hused.of_append hle) post
      · rw [Text.bytes_append, ← Nat.add_assoc] at h
        refine ih _ ?_ pre hpre.of_cons.of_append h rfl
        simp only [List.length_cons, List.length_append]
        omega

theorem scanFrom_add (base offset : Nat) (t : Text) : scanFrom 0 (base + offset) t =
    (scanFrom 0 offset t).map fun v => { v with offset := base + v.offset } := by
  induction t using scan_induction generalizing offset with
  | nil => rfl
  | plain c t hc ih => rw [scanFrom_plain hc, scanFrom_plain hc, Nat.add_assoc, ih]
  | pair t ih => rw [scanFrom_pair, scanFrom_pair, Nat.add_assoc, ih]
  | lone t ht hf ih => rw [scanFrom_lone ht hf, scanFrom_lone ht hf, Nat.add_assoc, ih]
  | form used f ht hf _ ih =>
    rw [scanFrom_form ht hf, scanFrom_form ht hf, Nat.add_assoc, Nat.add_assoc, ih, List.map_cons,
      Nat.add_assoc]

/-- Where something is found in a part of a text, it overlaps a match of the whole, if no dollar
sign stands in front of the part. -/
theorem exists_scan_overlap {pre t : Text} (hpre : EndsPlain pre) (h : scan t ≠ []) (post : Text) :
    ∃ a ∈ scan (pre ++ (t ++ post)), ∃ b ∈ scan t,
      a.offset ≤ pre.bytes + b.offset ∧ pre.bytes + b.offset < a.offset + a.size := by
  obtain ⟨b, bs, hb⟩ := List.exists_cons_of_ne_nil h
  have hscan : scanFrom 0 (0 + pre.bytes) t =
      { b with offset := pre.bytes + b.offset } ::
        bs.map fun v => { v with offset := pre.bytes + v.offset } := by
    rw [Nat.zero_add, ← Nat.add_zero pre.bytes, scanFrom_add, ← scan, hb, List.map_cons]
    rfl
  obtain ⟨a, ha, hlo, hhi⟩ := meets_of_scanFrom pre post hpre hscan
  exact ⟨a, ha, b, hb ▸ List.mem_cons_self, hlo, hhi⟩

end RouteScript.PseudoVar
