import RouteScript.Proofs.Lexing

/-!
# Tokens follow one another

The lexemes of a text stand one behind the other, and so do the tokens when the layout has put its
marks between them: a mark stands right behind what was read last.  Two words even have a character
between them, since a word goes as far as it can.

* `Lexer.laid_lexemes`: the lexemes follow one another.
* `Token.InTurn`, `inTurn_tokens`: so do the tokens.
* `size_pos_of_mem_tokens`: a token that is no mark and not stray is not empty.
* `words_apart`: between two words there is a character at least.
-/

namespace RouteScript.Python

/-- The tokens follow one another from the offset `low` on. -/
def Token.InTurn : (low : Nat) → List Token → Prop
  | _, [] => True
  | low, t :: ts =>
    low ≤ t.span.start ∧ t.span.start ≤ t.span.stop ∧ InTurn t.span.stop ts

namespace Token.InTurn

variable {low : Nat} {t : Token} {ts : List Token}

theorem mono (h : InTurn low ts) {low' : Nat} (hle : low' ≤ low) : InTurn low' ts := by
  cases ts with
  | nil => trivial
  | cons t ts => exact ⟨Nat.le_trans hle h.1, h.2⟩

theorem tail (h : InTurn low (t :: ts)) : InTurn low ts :=
  h.2.2.mono (Nat.le_trans h.1 h.2.1)

theorem of_mem (h : InTurn low ts) (ht : t ∈ ts) :
    low ≤ t.span.start ∧ t.span.start ≤ t.span.stop := by
  induction ts with
  | nil => cases ht
  | cons s ts ih =>
    rcases List.mem_cons.1 ht with rfl | ht
    · exact ⟨h.1, h.2.1⟩
    · exact ih h.tail ht

/-- Of two tokens, one stands in front of the other. -/
theorem apart {s : Token} (h : InTurn low ts) (hs : s ∈ ts) (ht : t ∈ ts) :
    s = t ∨ s.span.stop ≤ t.span.start ∨ t.span.stop ≤ s.span.start := by
  induction ts generalizing low with
  | nil => cases hs
  | cons r ts ih =>
    rcases List.mem_cons.1 hs with rfl | hs'
    · rcases List.mem_cons.1 ht with rfl | ht'
      · exact .inl rfl
      · exact .inr (.inl (h.2.2.of_mem ht').1)
    · rcases List.mem_cons.1 ht with rfl | ht'
      · exact .inr (.inr (h.2.2.of_mem hs').1)
      · exact ih h.2.2 hs' ht'

/-- Marks that stand at the offset may come first. -/
theorem append {marks : List Token} (hm : ∀ a ∈ marks, a.span = ⟨low, low⟩)
    (h : InTurn low ts) : InTurn low (marks ++ ts) := by
  induction marks with
  | nil => exact h
  | cons a marks ih =>
    rw [List.cons_append, InTurn, hm a List.mem_cons_self]
    exact ⟨Nat.le_refl _, Nat.le_refl _, ih fun b hb => hm b (List.mem_cons_of_mem a hb)⟩

end Token.InTurn

/-! ### Lexemes -/

namespace Lexer

/-- The lexemes follow one another from the offset on. -/
def Laid : (offset : Nat) → List Placed → Prop
  | _, [] => True
  | offset, ⟨.lineEnd, _⟩ :: ps => Laid offset ps
  | offset, ⟨.comment span, _⟩ :: ps =>
    offset ≤ span.start ∧ span.start ≤ span.stop ∧ Laid span.stop ps
  | offset, ⟨.token token, _⟩ :: ps =>
    offset ≤ token.span.start ∧ token.span.start ≤ token.span.stop ∧ Laid token.span.stop ps

theorem Laid.mono {offset offset' : Nat} {ps : List Placed} (h : Laid offset ps)
    (hle : offset' ≤ offset) : Laid offset' ps := by
  induction ps with
  | nil => trivial
  | cons p ps ih =>
    obtain ⟨lexeme, indent⟩ := p
    cases lexeme with
    | lineEnd => exact ih h
    | comment span => exact ⟨Nat.le_trans hle h.1, h.2⟩
    | token t => exact ⟨Nat.le_trans hle h.1, h.2⟩

theorem laid_place {read : List (Option TokenKind × Text)} {rest : Text} (hs : Spelled read rest)
    {offset : Nat} {indent : Option Nat} {more : List Placed}
    (h : Laid (offset + Text.bytes (read.map (·.2)).flatten) more) :
    Laid offset (place offset read indent ++ more) := by
  induction read generalizing offset indent with
  | nil => exact h
  | cons r read ih =>
    obtain ⟨kind, text⟩ := r
    obtain ⟨⟨k, rfl, -⟩, hs⟩ := hs
    rw [List.map_cons, List.flatten_cons, Text.bytes_append, ← Nat.add_assoc] at h
    exact ⟨Nat.le_refl _, Nat.le_add_right .., ih hs h⟩

/-- The lexemes of a text follow one another. -/
theorem laid_lexemes (fuel offset : Nat) (frames : List Frame) (indent : Option Nat) (t : Text) :
    Laid offset (lexemes fuel offset frames indent t) := by
  induction fuel generalizing offset frames indent t with
  | zero => trivial
  | succ fuel ih =>
    generalize hf : lexemes (fuel + 1) offset frames indent t = found
    rcases lexemes_cases hf with rfl | ⟨used, rest, indent', rfl, rfl⟩ | ⟨rest, rfl, rfl⟩ |
      ⟨comment, rest, rfl, rfl⟩ | ⟨s, hs, rfl⟩
    · trivial
    · exact (ih ..).mono (Nat.le_add_right ..)
    · exact (ih ..).mono (Nat.le_add_right ..)
    · exact ⟨Nat.le_refl _, Nat.le_add_right .., ih ..⟩
    · exact laid_place hs.spelled (ih ..)

end Lexer

/-! ### The marks of the layout -/

namespace Layout

theorem span_of_mem_closeBlocks {column : Nat} {s : State} {a : Token}
    (h : a ∈ (closeBlocks column s).1) : a.span = ⟨s.last, s.last⟩ := by
  obtain ⟨_, -, rfl⟩ := List.mem_map.1 h
  rfl

theorem span_of_mem_ite {column : Nat} {s s' : State} {marks : List Token}
    (h : (if s.started then ([], s) else closeBlocks column s) = (marks, s')) :
    ∀ a ∈ marks, a.span = ⟨s.last, s.last⟩ := by
  intro a ha
  split at h
  · cases h
    cases ha
  · rw [show marks = (closeBlocks column s).1 by rw [h]] at ha
    exact span_of_mem_closeBlocks ha

theorem endLine_spec (rest : List Placed) (s : State) :
    (∀ a ∈ (endLine rest s).1, a.span = ⟨s.last, s.last⟩) ∧ (endLine rest s).2.last = s.last := by
  unfold endLine
  split
  · exact ⟨fun a ha => absurd ha List.not_mem_nil, rfl⟩
  · split <;> exact ⟨fun a ha => by rw [List.mem_singleton.1 ha]; rfl, rfl⟩

/-- The tokens of lexemes that follow one another do so too. -/
theorem inTurn_arrange {ps : List Placed} {s : State} (h : Lexer.Laid s.last ps) :
    Token.InTurn s.last (arrange s ps) := by
  induction ps generalizing s with
  | nil =>
    obtain ⟨hm, hlast⟩ := endLine_spec [] s
    have hends : ∀ a ∈ (closeBlocks 0 (endLine [] s).2).1, a.span = ⟨s.last, s.last⟩ := by
      intro a ha
      rw [span_of_mem_closeBlocks ha, hlast]
    refine Token.InTurn.append hm ?_
    rw [← List.append_nil (closeBlocks 0 _).1]
    exact Token.InTurn.append hends trivial
  | cons p ps ih =>
    obtain ⟨lexeme, indent⟩ := p
    cases lexeme with
    | lineEnd =>
      obtain ⟨hm, hlast⟩ := endLine_spec ps s
      have hrest := ih (s := (endLine ps s).2) (by rw [hlast]; exact h)
      rw [hlast] at hrest
      exact Token.InTurn.append hm hrest
    | comment span =>
      rw [arrange]
      rcases hm : (if s.started then ([], s)
        else closeBlocks (max (nextIndent ps) (indent.getD 0)) s) with ⟨marks, s'⟩
      refine Token.InTurn.append (span_of_mem_ite hm) ?_
      exact (ih (s := ⟨s'.indents, span.stop, s'.started, s'.opening⟩) h.2.2).mono
        (Nat.le_trans h.1 h.2.1)
    | token t =>
      rw [arrange]
      rcases hm : (if s.started then ([], s) else closeBlocks (indent.getD 0) s) with ⟨marks, s'⟩
      refine Token.InTurn.append (span_of_mem_ite hm) ⟨h.1, h.2.1, ?_⟩
      exact ih (s := ⟨s'.indents, t.span.stop, true, t.kind == .operator && t.text == [':']⟩) h.2.2

end Layout

/-! ### The tokens of a text -/

/-- The tokens of a text follow one another. -/
theorem inTurn_tokens (t : Text) : Token.InTurn 0 (tokens t) :=
  Layout.inTurn_arrange (s := ⟨[0], 0, false, false⟩) (Lexer.laid_lexemes ..)

theorem Spells.ne_nil {kind : TokenKind} {text rest : Text} (h : Spells kind text rest)
    (hk : kind ≠ .stray) : text ≠ [] := by
  rintro rfl
  cases kind with
  | stringStart =>
    obtain ⟨front, mark, ht, -⟩ := h
    simp at ht
  | stringEnd =>
    obtain ⟨mark, rest, ht, -⟩ := h
    cases ht
  | word =>
    obtain ⟨c, hc, -⟩ := h.start
    cases hc
  | newline | indent | dedent => exact h
  | stray => exact hk rfl
  | integer | float | operator | stringContent | conversion | formatText => exact h rfl

/-- A token that is no mark of the layout and not stray is not empty. -/
theorem size_pos_of_mem_tokens {t : Text} {token : Token} (h : token ∈ tokens t)
    (hm : ¬ Layout.IsMark token) (hs : token.kind ≠ .stray) :
    token.span.start < token.span.stop := by
  obtain ⟨front, rest, -, hspan, hk⟩ := (stands_of_mem_tokens h).resolve_left hm
  rw [hspan]
  exact Nat.lt_add_of_pos_right (Text.bytes_pos (hk.ne_nil hs))

theorem not_isMark_of_word {token : Token} (h : token.kind = .word) : ¬ Layout.IsMark token := by
  simp [Layout.IsMark, h]

/-- A word does not stand right behind a word. -/
theorem lt_of_words {t : Text} {a b : Token} (ha : a ∈ tokens t) (hb : b ∈ tokens t)
    (hka : a.kind = .word) (hkb : b.kind = .word) (h : a.span.stop ≤ b.span.start) :
    a.span.stop < b.span.start := by
  obtain ⟨front, rest, ht, hspan, hword⟩ :=
    (stands_of_mem_tokens ha).resolve_left (not_isMark_of_word hka)
  obtain ⟨front', rest', ht', hspan', hword'⟩ :=
    (stands_of_mem_tokens hb).resolve_left (not_isMark_of_word hkb)
  rw [hka] at hword
  rw [hkb] at hword'
  simp only [hspan, hspan', Nat.zero_add] at h ⊢
  refine Nat.lt_of_le_of_ne h fun heq => ?_
  -- nothing would stand between the words, so the first would go on with the second
  rw [← Text.bytes_append] at h heq
  rw [← List.append_assoc] at ht
  obtain ⟨gap, hfront, hrest⟩ := Text.exists_append_of_bytes_le (ht.symm.trans ht') h
  have hgap : gap = [] := by
    by_contra hne
    have := Text.bytes_pos hne
    rw [hfront, Text.bytes_append (front ++ a.text)] at heq
    omega
  obtain ⟨c, hc, hstart⟩ := hword'.start
  have hhead : c ∈ rest.head? := by
    rw [hrest, hgap, List.nil_append, List.head?_append, show b.text.head? = some c from hc]
    rfl
  have hcont : Identifier.isContinue c = true := by
    rw [Identifier.isContinue, hstart]
    rfl
  exact absurd (hword.maximal c hhead) (by rw [hcont]; decide)

/-- Words that touch one offset are one word. -/
theorem word_eq_of_touches {t : Text} {a b : Token} (ha : a ∈ tokens t) (hb : b ∈ tokens t)
    (hka : a.kind = .word) (hkb : b.kind = .word) {offset : Nat} (hta : a.span.Touches offset)
    (htb : b.span.Touches offset) : a = b := by
  rcases (inTurn_tokens t).apart ha hb with h | h | h
  · exact h
  · have hlt := lt_of_words ha hb hka hkb h
    have := hta.2
    have := htb.1
    omega
  · have hlt := lt_of_words hb ha hkb hka h
    have := hta.1
    have := htb.2
    omega

end RouteScript.Python
