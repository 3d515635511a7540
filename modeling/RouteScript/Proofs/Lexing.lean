import Mathlib.Data.List.Basic
import RouteScript.Proofs.Offsets
import RouteScript.Python.Layout

/-!
# Lexemes are the text cut in pieces

The lexer loses no character: a step reads a front part of the text, and what it reads is what its
lexemes spell.  So a token stands in the text where its span says.

* `Spells`: what is taken for a token of a kind.
* `Step.Reads`, `lexemes_cases`: what every step does with the text in front of it.
* `Token.Stands`, `stands_of_mem_lexemes`: tokens spell the text at their spans.
* `quote_of_mem_tokens`: a quotation mark stands right in front of the body of a literal.
-/

namespace RouteScript.Python

/-- The last character is a quotation mark. -/
def EndsQuoted (t : Text) : Prop := ∃ front mark, t = front ++ [mark] ∧ (mark = '\'' ∨ mark = '"')

/-- The first character is a quotation mark. -/
def StartsQuoted (t : Text) : Prop := ∃ mark rest, t = mark :: rest ∧ (mark = '\'' ∨ mark = '"')

/-- The text is an identifier, and what is behind it does not go on with it. -/
structure IsWord (text rest : Text) : Prop where
  start : ∃ c ∈ text.head?, Identifier.isStart c = true
  chars : ∀ c ∈ text, Identifier.isContinue c = true
  maximal : ∀ c ∈ rest.head?, Identifier.isContinue c = false

/-- The text is taken for a token of the kind where `rest` stands behind it.  Nothing is taken for a
mark of the layout, and no token but a stray one is empty. -/
def Spells : TokenKind → (text rest : Text) → Prop
  | .stringStart, text, _ => EndsQuoted text
  | .stringEnd, text, _ => StartsQuoted text
  | .word, text, rest => IsWord text rest
  | .newline, _, _ | .indent, _, _ | .dedent, _, _ => False
  | .stray, _, _ => True
  | _, text, _ => text ≠ []

/-- The token spells what stands at its span in a text that starts at `offset`. -/
def Token.Stands (offset : Nat) (t : Text) (token : Token) : Prop :=
  ∃ front rest, t = front ++ (token.text ++ rest) ∧
    token.span = ⟨offset + front.bytes, offset + front.bytes + token.text.bytes⟩ ∧
    Spells token.kind token.text rest

theorem Token.Stands.behind {offset : Nat} {t : Text} {token : Token} {used : Text}
    (h : token.Stands (offset + used.bytes) t) : token.Stands offset (used ++ t) := by
  obtain ⟨front, rest, rfl, hs, hk⟩ := h
  refine ⟨used ++ front, rest, by rw [List.append_assoc], ?_, hk⟩
  rw [hs, Text.bytes_append, Nat.add_assoc]

namespace Lexer

/-! ### Numbers, words and operators -/

theorem run_append (p : Char → Bool) (t : Text) : (run p t).1 ++ (run p t).2 = t :=
  List.takeWhile_append_dropWhile

theorem run_stops (p : Char → Bool) (t : Text) : ∀ c ∈ (run p t).2.head?, p c = false := by
  intro c hc
  have hstop := List.head?_dropWhile_not p t
  rw [show (t.dropWhile p).head? = some c from hc] at hstop
  exact hstop

theorem optionalChar_append (chars : List Char) (t : Text) :
    (optionalChar chars t).1 ++ (optionalChar chars t).2 = t := by
  cases t with
  | nil => rfl
  | cons c t =>
    rw [optionalChar]
    split <;> rfl

theorem digits_append (t : Text) : (digits t).1 ++ (digits t).2 = t := run_append _ t

theorem exponent?_append {t power rest : Text} (h : exponent? t = some (power, rest)) :
    power ++ rest = t := by
  unfold exponent? at h
  split at h
  · rename_i e t
    split at h
    · have hsign := optionalChar_append ['+', '-'] t
      simp only at h
      split at h
      · rename_i d _ hd
        split at h
        · cases h
          rw [List.cons_append, List.cons_append, List.append_assoc, digits_append, hsign]
        · cases h
      · cases h
    · cases h
  · cases h

theorem exponent?_getD_append (t : Text) :
    ((exponent? t).getD ([], t)).1 ++ ((exponent? t).getD ([], t)).2 = t := by
  cases h : exponent? t with
  | none => rfl
  | some r => exact exponent?_append h

theorem fraction_append (skip : Prop) [Decidable skip] (t : Text) :
    (if skip then ([], t) else digits t).1 ++ (if skip then ([], t) else digits t).2 = t := by
  split
  · rfl
  · exact digits_append t

theorem decimal_append (t : Text) : (decimal t).2.1 ++ (decimal t).2.2 = t := by
  simp only [decimal, List.append_assoc, optionalChar_append, exponent?_getD_append,
    fraction_append, digits_append]

theorem number_append (t : Text) : (number t).2.1 ++ (number t).2.2 = t := by
  unfold number
  split
  · rename_i b d rest
    split
    · rename_i base _
      split
      · rcases h : run (isDigitOf base) (d :: rest) with ⟨ds, t⟩
        have e : ds ++ t = d :: rest := by rw [← run_append (isDigitOf base) (d :: rest), h]
        simp only [List.cons_append, List.append_assoc, optionalChar_append, e]
      · exact decimal_append _
    · exact decimal_append _
  · exact decimal_append t

/-- A number is an integer or a floating-point number. -/
theorem decimal_kind (t : Text) : (decimal t).1 = .integer ∨ (decimal t).1 = .float := by
  have h : ∀ isFloat : Bool, (if isFloat then TokenKind.float else .integer) = .integer ∨
      (if isFloat then TokenKind.float else .integer) = .float := by decide
  exact h _

theorem number_kind (t : Text) : (number t).1 = .integer ∨ (number t).1 = .float := by
  unfold number
  split
  · split
    · split
      · exact .inl rfl
      · exact decimal_kind _
    · exact decimal_kind _
  · exact decimal_kind t

theorem isDigitOf_ten {c : Char} (h : c.isDigit = true) : isDigitOf 10 c = true := by
  have hc : c.toNat ≤ 57 := by
    simp only [Char.isDigit, Bool.and_eq_true, decide_eq_true_eq] at h
    exact UInt32.le_iff_toNat_le.1 h.2
  have hlt : c.toNat - 48 < 10 := by omega
  simp [isDigitOf, h, hlt]

/-- Where a number starts, one is read. -/
theorem decimal_ne_nil {t : Text} (h : startsNumber t = true) : (decimal t).2.1 ≠ [] := by
  unfold startsNumber at h
  unfold decimal
  split at h
  · rename_i d rest
    have hdot : isDigitOf 10 '.' = false := by decide
    simp [digits, run, hdot, optionalChar]
  · rename_i d rest _
    simp [digits, run, isDigitOf_ten h]
  · cases h

theorem number_ne_nil {t : Text} (h : startsNumber t = true) : (number t).2.1 ≠ [] := by
  unfold number
  split
  · split
    · split
      · exact List.cons_ne_nil _ _
      · exact decimal_ne_nil h
    · exact decimal_ne_nil h
  · exact decimal_ne_nil h

theorem spells_number {t : Text} (h : startsNumber t = true) (rest : Text) :
    Spells (number t).1 (number t).2.1 rest := by
  rcases number_kind t with hk | hk <;> rw [hk] <;> exact number_ne_nil h

theorem operators_ne_nil : ∀ op ∈ operators, op.toList ≠ [] := by decide

theorem operator?_append {t op rest : Text} (h : operator? t = some (op, rest)) :
    op ++ rest = t ∧ op ≠ [] := by
  obtain ⟨spelling, hmem, hs⟩ := List.exists_of_findSome?_eq_some h
  obtain ⟨rest', hr, he⟩ := Option.map_eq_some_iff.1 hs
  cases he
  exact ⟨(Text.stripFront?_eq_some_iff.1 hr).symm, operators_ne_nil spelling hmem⟩

/-- A word goes as far as it can. -/
theorem isWord_run {c : Char} (t : Text) (hc : Identifier.isStart c = true) :
    IsWord (run Identifier.isContinue (c :: t)).1 (run Identifier.isContinue (c :: t)).2 := by
  have hcont : Identifier.isContinue c = true := by rw [Identifier.isContinue, hc]; rfl
  refine ⟨⟨c, ?_, hc⟩, fun d hd => ?_, run_stops _ _⟩
  · rw [run, List.takeWhile_cons_of_pos hcont]
    rfl
  · exact List.all_eq_true.1 List.all_takeWhile d hd

theorem quote?_append {t opening rest : Text} {q : Quote} (h : quote? t = some (q, opening, rest)) :
    opening ++ rest = t ∧ EndsQuoted opening := by
  unfold quote? at h
  rcases hr : run isLiteralLetter t with ⟨letters, t₁⟩
  have e : letters ++ t₁ = t := by rw [← run_append isLiteralLetter t, hr]
  rw [hr] at h
  simp only at h
  split at h
  · rename_i m t₂
    split at h
    · rename_i hmark
      cases h
      rw [← e]
      split
      · rename_i a b more
        split
        · rename_i hab
          obtain ⟨rfl, rfl⟩ : a = m ∧ b = m := by simpa using hab
          refine ⟨by simp, letters ++ [b, b], b, by simp, hmark⟩
        · exact ⟨by simp, letters, m, rfl, hmark⟩
      · exact ⟨by simp, letters, m, rfl, hmark⟩
    · cases h
  · cases h

/-! ### Bodies of literals -/

theorem body_append (q : Quote) (named : Bool) (t : Text) :
    (body q named t).1 ++ (body q named t).2 = t := by
  fun_induction body q named t <;> simp_all

theorem closes_append {q : Quote} {t : Text} (h : closes q t = true) :
    (if q.triple then [q.mark, q.mark, q.mark] else [q.mark]) ++
      t.drop (if q.triple then [q.mark, q.mark, q.mark] else [q.mark]).length = t := by
  unfold closes at h
  split at h
  · rename_i ht
    obtain ⟨rest, hr⟩ := Option.isSome_iff_exists.1 h
    rw [if_pos ht, Text.stripFront?_eq_some_iff.1 hr, List.drop_left]
  · rename_i ht
    obtain ⟨rest, rfl⟩ := List.head?_eq_some_iff.1 (beq_iff_eq.1 h)
    rw [if_neg ht]
    rfl

/-! ### One step -/

/-- The lexemes spell tokens of their kinds, where `rest` stands behind them. -/
def Spelled : List (Option TokenKind × Text) → (rest : Text) → Prop
  | [], _ => True
  | (kind, text) :: more, rest =>
    (∃ k, kind = some k ∧ Spells k text ((more.map (·.2)).flatten ++ rest)) ∧ Spelled more rest

/-- The step reads the text from its front on, and what it reads spells tokens. -/
structure Step.Reads (s : Step) (t : Text) : Prop where
  append : s.text ++ s.rest = t
  spelled : Spelled s.read s.rest

/-- A step that reads one token. -/
theorem reads_single {kind : TokenKind} {text rest t : Text} (frames : List Frame)
    (h : text ++ rest = t) (hk : Spells kind text rest) :
    Step.Reads ⟨[(some kind, text)], frames, rest⟩ t := by
  refine ⟨?_, ⟨kind, rfl, hk⟩, trivial⟩
  rw [← h, Step.text, List.map_singleton, List.flatten_singleton]

/-- A step that reads one token, and perhaps another in front of it. -/
theorem reads_behind {kind before : TokenKind} {content text rest t : Text} (frames : List Frame)
    (h : content ++ (text ++ rest) = t) (hk : Spells kind text rest)
    (hb : content ≠ [] → ∀ rest, Spells before content rest) :
    Step.Reads ⟨(if content.isEmpty then [] else [(some before, content)]) ++ [(some kind, text)],
      frames, rest⟩ t := by
  cases content with
  | nil => exact reads_single frames h hk
  | cons c content =>
    refine ⟨?_, ⟨before, rfl, hb (List.cons_ne_nil c content) _⟩, ⟨kind, rfl, hk⟩, trivial⟩
    rw [← h]
    simp [Step.text]

theorem reads_literalStep (q : Quote) (frames : List Frame) (t : Text) :
    (literalStep q frames t).Reads t := by
  have hb := body_append q false t
  unfold literalStep
  rcases h : body q false t with ⟨content, t₁⟩
  rw [h] at hb
  simp only at hb ⊢
  split
  · rename_i hc
    refine reads_behind frames (by rw [closes_append hc, hb]) ?_ fun hne _ => hne
    show StartsQuoted (if q.triple then [q.mark, q.mark, q.mark] else [q.mark])
    split <;> exact ⟨q.mark, _, rfl, q.isMark⟩
  · split
    · exact reads_behind _ hb (List.cons_ne_nil _ _) fun hne _ => hne
    · exact reads_behind _ hb trivial fun hne _ => hne
    · exact reads_behind _ hb trivial fun hne _ => hne

theorem reads_specifierStep (q : Quote) (frames : List Frame) (t : Text) :
    (specifierStep q frames t).Reads t := by
  have hb := run_append (fun c => c != '\x7b' && c != '\x7d') t
  unfold specifierStep formatText
  rcases h : run (fun c => c != '\x7b' && c != '\x7d') t with ⟨content, t₁⟩
  rw [h] at hb
  simp only at hb ⊢
  split
  · exact reads_behind _ hb (List.cons_ne_nil _ _) fun hne _ => hne
  · exact reads_behind _ hb (List.cons_ne_nil _ _) fun hne _ => hne
  · rename_i hopen hclose
    -- the run stops at a brace only, so nothing is left here
    have hnil : t₁ = [] := by
      cases t₁ with
      | nil => rfl
      | cons c rest =>
        have hstop := List.head?_dropWhile_not (fun c => c != '\x7b' && c != '\x7d') t
        rw [show t.dropWhile _ = c :: rest from congrArg Prod.snd h] at hstop
        have hc : c = '\x7b' ∨ c = '\x7d' := by
          by_contra hc
          simp_all
        rcases hc with rfl | rfl
        · exact absurd rfl (hopen rest)
        · exact absurd rfl (hclose rest)
    rw [hnil] at hb
    exact reads_behind _ hb trivial fun hne _ => hne

theorem reads_codeStep (frames : List Frame) (t : Text) : (codeStep frames t).Reads t := by
  unfold codeStep
  split
  · exact reads_single _ rfl (List.cons_ne_nil _ _)
  · split
    · exact reads_single _ rfl (List.cons_ne_nil _ _)
    · exact reads_single _ rfl (List.cons_ne_nil _ _)
  · split
    · rename_i q opening rest hq
      obtain ⟨ht, hm⟩ := quote?_append hq
      exact reads_single _ ht hm
    · split
      · exact ⟨rfl, trivial⟩
      · rename_i c more _ _ _
        split
        · rename_i hc
          exact reads_single _ List.takeWhile_append_dropWhile (isWord_run more hc)
        · split
          · rename_i hn
            exact reads_single _ (number_append _) (spells_number hn _)
          · split
            · rename_i op rest ho
              exact reads_single _ (operator?_append ho).1 (operator?_append ho).2
            · exact reads_single _ rfl trivial

/-! ### The loop -/

/-- The tokens of a step spell what it reads. -/
theorem stands_of_mem_place {read : List (Option TokenKind × Text)} {offset : Nat}
    {indent : Option Nat} {p : Placed} {token : Token} {rest : Text}
    (hp : p ∈ place offset read indent) (ht : p.lexeme = .token token) (hs : Spelled read rest) :
    token.Stands offset ((read.map (·.2)).flatten ++ rest) := by
  induction read generalizing offset indent with
  | nil => cases hp
  | cons r read ih =>
    obtain ⟨kind, text⟩ := r
    obtain ⟨⟨k, rfl, hk⟩, hs⟩ := hs
    rw [List.map_cons, List.flatten_cons, List.append_assoc]
    rcases List.mem_cons.1 hp with rfl | hp
    · cases ht
      exact ⟨[], _, rfl, rfl, hk⟩
    · exact (ih hp hs).behind

/-- What the loop does: it stops, passes over characters, ends a line, reads a comment or takes a
step. -/
theorem lexemes_cases {fuel offset : Nat} {frames : List Frame} {indent : Option Nat} {t : Text}
    {found : List Placed} (h : lexemes (fuel + 1) offset frames indent t = found) :
    found = [] ∨
    (∃ used rest indent', t = used ++ rest ∧
      found = lexemes fuel (offset + used.bytes) frames indent' rest) ∨
    (∃ rest, t = '\n' :: rest ∧
      found = ⟨.lineEnd, none⟩ :: lexemes fuel (offset + 1) frames (some 0) rest) ∨
    (∃ comment rest, t = comment ++ rest ∧
      found = ⟨.comment ⟨offset, offset + comment.bytes⟩, indent⟩ ::
        lexemes fuel (offset + comment.bytes) frames none rest) ∨
    (∃ s : Step, s.Reads t ∧ found =
      place offset s.read indent ++ lexemes fuel (offset + s.text.bytes) s.frames none s.rest) := by
  -- in a literal or a format specifier, at the end, at a line that goes on, in code
  rw [lexemes.eq_def] at h
  simp only at h
  split at h
  · split at h
    · exact .inl h.symm
    · exact .inr (.inr (.inr (.inr ⟨_, reads_literalStep .., h.symm⟩)))
  · split at h
    · exact .inl h.symm
    · exact .inr (.inr (.inr (.inr ⟨_, reads_specifierStep .., h.symm⟩)))
  · exact .inl h.symm
  · exact .inr (.inl ⟨['\\', '\r', '\n'], _, _, rfl, h.symm⟩)
  · exact .inr (.inl ⟨['\\', '\n'], _, _, rfl, h.symm⟩)
  · rename_i c t _ _ _ _
    split at h
    · rename_i hc
      obtain rfl := beq_iff_eq.1 hc
      split at h
      · exact .inr (.inr (.inl ⟨t, rfl, h.symm⟩))
      · exact .inr (.inl ⟨['\n'], t, _, rfl, h.symm⟩)
    · split at h
      · exact .inr (.inl ⟨[c], t, _, rfl, h.symm⟩)
      · split at h
        · refine .inr (.inr (.inr (.inl ⟨(run (· != '\n') (c :: t)).1, (run (· != '\n') (c :: t)).2,
            (run_append _ _).symm, ?_⟩)))
          rw [← h]
          simp [place, Step.text]
        · exact .inr (.inr (.inr (.inr ⟨_, reads_codeStep .., h.symm⟩)))

theorem stands_of_mem_lexemes {fuel offset : Nat} {frames : List Frame} {indent : Option Nat}
    {t : Text} {p : Placed} {token : Token} (hp : p ∈ lexemes fuel offset frames indent t)
    (ht : p.lexeme = .token token) : token.Stands offset t := by
  induction fuel generalizing offset frames indent t with
  | zero => cases hp
  | succ fuel ih =>
    generalize hf : lexemes (fuel + 1) offset frames indent t = found at hp
    rcases lexemes_cases hf with rfl | ⟨used, rest, indent', rfl, rfl⟩ | ⟨rest, rfl, rfl⟩ |
      ⟨comment, rest, rfl, rfl⟩ | ⟨s, hs, rfl⟩
    · cases hp
    · exact (ih hp).behind
    · rcases List.mem_cons.1 hp with rfl | hp
      · cases ht
      · show token.Stands offset (['\n'] ++ rest)
        exact (ih hp).behind
    · rcases List.mem_cons.1 hp with rfl | hp
      · cases ht
      · exact (ih hp).behind
    · rw [← hs.append]
      rcases List.mem_append.1 hp with hp | hp
      · exact stands_of_mem_place hp ht hs.spelled
      · exact (ih hp).behind

end Lexer

/-! ### Marks of the layout -/

namespace Layout

/-- The token only marks the layout. -/
def IsMark (token : Token) : Prop :=
  token.kind = .newline ∨ token.kind = .indent ∨ token.kind = .dedent

/-- The token is a mark and holds no character. -/
def IsBare (token : Token) : Prop := IsMark token ∧ token.span.start = token.span.stop

theorem isBare_of_mem_closeBlocks {column : Nat} {s : State} {token : Token}
    (h : token ∈ (closeBlocks column s).1) : IsBare token := by
  obtain ⟨_, -, rfl⟩ := List.mem_map.1 h
  exact ⟨.inr (.inr rfl), rfl⟩

/-- A line that holds a token already ends no block. -/
theorem isBare_of_mem_ite {column : Nat} {s s' : State} {marks : List Token} {token : Token}
    (hm : (if s.started then ([], s) else closeBlocks column s) = (marks, s'))
    (h : token ∈ marks) : IsBare token := by
  split at hm
  · cases hm
    cases h
  · exact isBare_of_mem_closeBlocks (s := s) (by rw [hm]; exact h)

theorem isBare_of_mem_endLine {rest : List Placed} {s : State} {token : Token}
    (h : token ∈ (endLine rest s).1) : IsBare token := by
  unfold endLine at h
  split at h
  · cases h
  · split at h
    · rw [List.mem_singleton.1 h]
      exact ⟨.inr (.inl rfl), rfl⟩
    · rw [List.mem_singleton.1 h]
      exact ⟨.inl rfl, rfl⟩

/-- The layout adds marks to the tokens. -/
theorem mem_arrange {s : State} {ps : List Placed} {token : Token} (h : token ∈ arrange s ps) :
    IsBare token ∨ ∃ p ∈ ps, p.lexeme = .token token := by
  induction ps generalizing s with
  | nil =>
    rcases List.mem_append.1 h with h | h
    · exact .inl (isBare_of_mem_endLine h)
    · exact .inl (isBare_of_mem_closeBlocks h)
  | cons p ps ih =>
    have below : ∀ {s}, token ∈ arrange s ps →
        IsBare token ∨ ∃ q ∈ p :: ps, q.lexeme = .token token := by
      intro s h
      rcases ih h with hm | ⟨q, hq, he⟩
      · exact .inl hm
      · exact .inr ⟨q, List.mem_cons_of_mem p hq, he⟩
    obtain ⟨lexeme, indent⟩ := p
    cases lexeme with
    | lineEnd =>
      rcases List.mem_append.1 h with h | h
      · exact .inl (isBare_of_mem_endLine h)
      · exact below h
    | comment span =>
      rw [arrange] at h
      rcases hm : (if s.started then ([], s)
        else closeBlocks (max (nextIndent ps) (indent.getD 0)) s) with ⟨marks, s'⟩
      rw [hm] at h
      rcases List.mem_append.1 h with h | h
      · exact .inl (isBare_of_mem_ite hm h)
      · exact below h
    | token t =>
      rw [arrange] at h
      rcases hm : (if s.started then ([], s) else closeBlocks (indent.getD 0) s) with ⟨marks, s'⟩
      rw [hm] at h
      rcases List.mem_append.1 h with h | h
      · exact .inl (isBare_of_mem_ite hm h)
      · rcases List.mem_cons.1 h with rfl | h
        · exact .inr ⟨_, List.mem_cons_self, rfl⟩
        · exact below h

end Layout

theorem stands_of_mem_tokens {t : Text} {token : Token} (h : token ∈ tokens t) :
    Layout.IsMark token ∨ token.Stands 0 t := by
  rcases Layout.mem_arrange h with ⟨hm, -⟩ | ⟨p, hp, he⟩
  · exact .inl hm
  · exact .inr (Lexer.stands_of_mem_lexemes hp he)

/-- A mark of the layout holds no character. -/
theorem size_zero_of_isMark {t : Text} {token : Token} (h : token ∈ tokens t)
    (hm : Layout.IsMark token) : token.span.start = token.span.stop := by
  rcases Layout.mem_arrange h with ⟨-, hsize⟩ | ⟨p, hp, he⟩
  · exact hsize
  · obtain ⟨_, _, -, -, hspells⟩ := Lexer.stands_of_mem_lexemes hp he
    rcases hm with hm | hm | hm <;> rw [hm] at hspells <;> cases hspells

/-- A quotation mark stands right behind the body of a literal. -/
theorem closing_of_mem_tokens {t : Text} {token : Token} (h : token ∈ tokens t)
    (hk : token.kind = .stringEnd) : ∃ front mark rest, t = front ++ mark :: rest ∧
      (mark = '\'' ∨ mark = '"') ∧ token.span.start = Text.bytes front := by
  rcases stands_of_mem_tokens h with hm | ⟨front, rest, rfl, hs, hq⟩
  · simp [Layout.IsMark, hk] at hm
  · rw [hk] at hq
    obtain ⟨mark, marks, htext, hmark⟩ := hq
    refine ⟨front, mark, marks ++ rest, ?_, hmark, ?_⟩
    · rw [htext, List.cons_append]
    · rw [hs, Nat.zero_add]

/-- A quotation mark stands right in front of the body of a literal. -/
theorem quote_of_mem_tokens {t : Text} {token : Token} (h : token ∈ tokens t)
    (hk : token.kind = .stringStart) : ∃ front mark rest, t = front ++ mark :: rest ∧
      (mark = '\'' ∨ mark = '"') ∧ token.span.stop = Text.bytes (front ++ [mark]) := by
  rcases stands_of_mem_tokens h with hm | ⟨front, rest, rfl, hs, hq⟩
  · simp [Layout.IsMark, hk] at hm
  · rw [hk] at hq
    obtain ⟨letters, mark, htext, hmark⟩ := hq
    refine ⟨front ++ letters, mark, rest, ?_, hmark, ?_⟩
    · rw [htext, List.append_assoc, List.append_assoc, List.singleton_append]
    · rw [hs, htext, List.append_assoc, Text.bytes_append front, Nat.zero_add]

end RouteScript.Python
