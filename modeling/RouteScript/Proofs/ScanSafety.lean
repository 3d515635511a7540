import RouteScript.Proofs.MatchBoundaries
import RouteScript.PseudoVar.ByteScanner

/-!
# The scanner is safe

The pass over the bytes of a text asks for no byte behind the end, cuts no character, closes no
parenthesis that is not open, and is at the end after as many steps as the text has bytes.  It finds
what the scanner finds.

* `LeftAt`: what is left of a text at an offset; bytes looked up there are those of what is left.
* `balance_encode`: counting parentheses by bytes never gets below none.
* `Agrees`, `optionalAt_eq`: an optional part is read by bytes as by characters.
* `bracketedAt_eq`, `namedAt_eq`, `selectAliasAt_eq`: so is each form.
* `passFrom_eq`: so is the whole text.
* `scan_safe`: the pass has no fault, and matches stand in the text where they say.
-/

namespace RouteScript.PseudoVar

/-! ### What is left at an offset -/

/-- The text `rest` is left of `t` at the offset. -/
def LeftAt (t : Text) (offset : Nat) (rest : Text) : Prop :=
  ∃ front, t = front ++ rest ∧ front.bytes = offset

namespace LeftAt

variable {t rest used : Text} {p q : Nat} {c : Char}

theorem append (h : LeftAt t p (used ++ rest)) : LeftAt t (p + used.bytes) rest := by
  obtain ⟨front, rfl, rfl⟩ := h
  exact ⟨front ++ used, (List.append_assoc ..).symm, Text.bytes_append ..⟩

theorem cons (h : LeftAt t p (c :: rest)) : LeftAt t (p + c.utf8Size) rest := by
  have hone : LeftAt t p ([c] ++ rest) := h
  exact hone.append

theorem tail (h : LeftAt t p (c :: rest)) (hc : c.toNat < 0x80) : LeftAt t (p + 1) rest := by
  rw [← Utf8.utf8Size_of_lt hc]
  exact h.cons

theorem unique (h : LeftAt t p rest) (h' : LeftAt t q rest) : p = q := by
  obtain ⟨front, rfl, rfl⟩ := h
  obtain ⟨front', he, rfl⟩ := h'
  rw [List.append_cancel_right he]

theorem bytes_eq (h : LeftAt t p rest) : t.bytes = p + rest.bytes := by
  obtain ⟨front, rfl, rfl⟩ := h
  exact Text.bytes_append ..

/-- What is left behind a part stands as far from the end as it is long. -/
theorem behind (h : LeftAt t p (used ++ rest)) : LeftAt t (t.bytes - rest.bytes) rest := by
  have h' := h.append
  rwa [h'.bytes_eq, Nat.add_sub_cancel]

theorem drop_encode (h : LeftAt t p rest) : (Utf8.encode t).drop p = Utf8.encode rest := by
  obtain ⟨front, rfl, rfl⟩ := h
  rw [Utf8.encode_append, ← Utf8.length_encode, List.drop_left]

theorem byte?_add (h : LeftAt t p rest) (n : Nat) : byte? t (p + n) = (Utf8.encode rest)[n]? := by
  rw [byte?, ← h.drop_encode, List.getElem?_drop]

theorem byte?_eq (h : LeftAt t p rest) : byte? t p = (Utf8.encode rest).head? := by
  rw [List.head?_eq_getElem?]
  exact h.byte?_add 0

theorem byte?_eq_some_iff (h : LeftAt t p rest) (hc : c.toNat < 0x80) :
    byte? t p = some c.toUInt8 ↔ rest.head? = some c := by
  rw [h.byte?_eq, Utf8.head?_encode_eq_some_iff hc]

theorem bytesFrom_eq (h : LeftAt t p rest) : bytesFrom t p = .ok (Utf8.encode rest) := by
  rw [bytesFrom, if_pos (by rw [h.bytes_eq]; exact Nat.le_add_right ..), h.drop_encode]

theorem isBoundary (h : LeftAt t p rest) : t.isBoundary p = true := by
  obtain ⟨front, rfl, rfl⟩ := h
  exact Text.isBoundary_iff.2 ⟨front, rest, rfl, rfl⟩

theorem slice_eq (h : LeftAt t p (used ++ rest)) : t.slice ⟨p, p + used.bytes⟩ = used := by
  obtain ⟨front, rfl, rfl⟩ := h
  rw [← Text.bytes_append, Text.slice_append_append]

theorem cut_eq (h : LeftAt t p (used ++ rest)) (hq : LeftAt t q rest) : cut t p q = .ok used := by
  obtain rfl := hq.unique h.append
  rw [cut, if_pos ⟨Nat.le_add_right .., h.isBoundary, hq.isBoundary⟩, h.slice_eq]

end LeftAt

/-! ### Words -/

theorem lt_of_isAliasChar {c : Char} (h : isAliasChar c = true) : c.toNat < 0x80 := by
  unfold isAliasChar isWordChar Char.isAlpha Char.isUpper Char.isLower at h
  simp only [Char.isDigit, Bool.or_eq_true, Bool.and_eq_true, decide_eq_true_eq, beq_iff_eq,
    ge_iff_le, UInt32.le_iff_toNat_le] at h
  unfold Char.toNat
  rcases h with (((⟨-, h⟩ | ⟨-, h⟩) | ⟨-, h⟩) | rfl) | rfl
  · exact Nat.lt_of_le_of_lt h (by decide)
  · exact Nat.lt_of_le_of_lt h (by decide)
  · exact Nat.lt_of_le_of_lt h (by decide)
  · decide
  · decide

theorem lt_of_isWordChar {c : Char} (h : isWordChar c = true) : c.toNat < 0x80 :=
  lt_of_isAliasChar (by rw [isAliasChar, h, Bool.true_or])

theorem lt_of_isWordStart {c : Char} (h : isWordStart c = true) : c.toNat < 0x80 :=
  lt_of_isWordChar (isWordChar_of_isWordStart h)

/-! ### Readings -/

theorem found_none_bind {α β : Type} (f : α → Reading β) : found none >>= f = found none := rfl

theorem found_some_bind {α β : Type} (a : α) (f : α → Reading β) : found (some a) >>= f = f a := rfl

theorem ok_bind {α β : Type} (a : α) (f : α → Reading β) :
    (liftM (Except.ok a : Except Fault α) : Reading α) >>= f = f a := rfl

theorem ok_eq {α : Type} (a : α) :
    (liftM (Except.ok a : Except Fault α) : Reading α) = found (some a) := rfl

/-- What is looked for behind something found is found where the readers of that agree. -/
theorem found_map_bind {α α' β : Type} {a : Option α} {k : α → α'} {f : α' → Reading β}
    {g : α → Option β} (h : ∀ x, a = some x → f (k x) = found (g x)) :
    found (a.map k) >>= f = found (a.bind g) := by
  cases a with
  | none => rfl
  | some x => exact h x rfl

theorem found_map_orElse {α β : Type} (k : α → β) (a b : Option α) :
    (found (a.map k) <|> found (b.map k)) = found ((a <|> b).map k) := by
  cases a <;> rfl

theorem guard_eq {p : Prop} [Decidable p] (h : p) : (guard p : Reading Unit) = found (some ()) :=
  if_pos h

theorem guard_eq_none {p : Prop} [Decidable p] (h : ¬ p) : (guard p : Reading Unit) = found none :=
  if_neg h

section

variable {t rest : Text} {p : Nat}

theorem LeftAt.guard_eq (h : LeftAt t p rest) {c : Char} (hc : c.toNat < 0x80)
    (hhead : rest.head? = some c) :
    (guard (byte? t p = some c.toUInt8) : Reading Unit) = found (some ()) :=
  PseudoVar.guard_eq ((h.byte?_eq_some_iff hc).2 hhead)

theorem LeftAt.guard_eq_none (h : LeftAt t p rest) {c : Char} (hc : c.toNat < 0x80)
    (hhead : rest.head? ≠ some c) :
    (guard (byte? t p = some c.toUInt8) : Reading Unit) = found none :=
  PseudoVar.guard_eq_none (mt (h.byte?_eq_some_iff hc).1 hhead)

theorem wordStop_eq (h : LeftAt t p rest) :
    wordStop t p = found ((word? rest).map fun part => p + part.1.bytes) := by
  unfold wordStop
  cases rest with
  | nil =>
    rw [h.byte?_eq]
    rfl
  | cons c rest =>
    obtain ⟨b, bs, hb, -, -⟩ := Utf8.encodeChar_eq_cons c
    have hlead := Utf8.ofUInt8_lead (p := isWordStart) (fun _ => lt_of_isWordStart) hb
    have hbyte : byte? t p = some b := by
      rw [h.byte?_eq, Utf8.encode_cons, hb]
      rfl
    rw [hbyte, found_some_bind, word?]
    by_cases hc : isWordStart c = true
    · have hsize := Utf8.utf8Size_of_lt (lt_of_isWordStart hc)
      have hrest : LeftAt t (p + 1) rest := h.tail (lt_of_isWordStart hc)
      rw [guard_eq (hlead.trans hc), found_some_bind, hrest.bytesFrom_eq, ok_bind, if_pos hc,
        Utf8.takeWhile_encode (p := isWordChar) (fun _ => lt_of_isWordChar), Utf8.length_encode]
      show found (some (p + 1 + Text.bytes (rest.takeWhile isWordChar))) =
        found (some (p + Text.bytes (c :: rest.takeWhile isWordChar)))
      rw [Text.bytes_cons, hsize, Nat.add_assoc]
    · rw [guard_eq_none (by rwa [hlead]), if_neg hc]
      rfl

/-! ### Optional parts -/

theorem balance_open (depth offset : Nat) (bs : List UInt8) :
    balance depth offset ('('.toUInt8 :: bs) = balance (depth + 1) (offset + 1) bs := by
  rw [balance.eq_def]
  exact if_pos rfl

theorem balance_close (depth offset : Nat) (bs : List UInt8) :
    balance (depth + 2) offset (')'.toUInt8 :: bs) = balance (depth + 1) (offset + 1) bs := rfl

/-- Bytes that are no parentheses leave the count as it is. -/
theorem balance_append {bs : List UInt8} (h : ∀ b ∈ bs, b ≠ '('.toUInt8 ∧ b ≠ ')'.toUInt8)
    (depth offset : Nat) (bs' : List UInt8) :
    balance depth offset (bs ++ bs') = balance depth (offset + bs.length) bs' := by
  induction bs generalizing offset with
  | nil => rfl
  | cons b bs ih =>
    obtain ⟨⟨hopen, hclose⟩, hbs⟩ := List.forall_mem_cons.1 h
    rw [List.cons_append, balance.eq_def]
    simp only [if_neg hopen, if_neg hclose]
    rw [ih hbs, List.length_cons, Nat.add_assoc, Nat.add_comm 1]

theorem closing?_close (depth : Nat) (t : Text) : closing? (depth + 1) (')' :: t) =
    (closing? depth t).map fun (inner, rest) => (')' :: inner, rest) := rfl

theorem closing?_other {c : Char} (hc : c ≠ ')') (depth : Nat) (t : Text) :
    closing? depth (c :: t) =
      (closing? (if c = '(' then depth + 1 else depth) t).map fun (inner, rest) =>
        (c :: inner, rest) := by
  rw [closing?.eq_def]
  exact if_neg hc

/-- Behind an opening parenthesis the count does not get below none, and the parenthesis that
balances it is found. -/
theorem balance_encode (depth offset : Nat) (t : Text) :
    balance (depth + 1) offset (Utf8.encode t) =
      .ok ((closing? depth t).map fun part => offset + part.1.bytes) := by
  induction t generalizing depth offset with
  | nil => rfl
  | cons c t ih =>
    have hcons (closed : Option (Text × Text)) :
        (closed.map fun (inner, rest) => (c :: inner, rest)).map
            (fun part : Text × Text => offset + part.1.bytes) =
          closed.map fun part => offset + c.utf8Size + part.1.bytes := by
      cases closed with
      | none => rfl
      | some part =>
        show some (offset + Text.bytes (c :: part.1)) = some (offset + c.utf8Size + part.1.bytes)
        rw [Text.bytes_cons, Nat.add_assoc]
    rw [Utf8.encode_cons]
    by_cases hclose : c = ')'
    · subst hclose
      rw [Utf8.encodeChar_of_lt (by decide), List.singleton_append]
      cases depth with
      | zero => rfl
      | succ depth =>
        rw [balance_close, ih, closing?_close, hcons]
        rfl
    · rw [closing?_other hclose, hcons]
      by_cases hopen : c = '('
      · subst hopen
        rw [Utf8.encodeChar_of_lt (by decide), List.singleton_append, balance_open, ih, if_pos rfl]
        rfl
      · -- no byte of another character is a parenthesis
        have hbytes : ∀ b ∈ String.utf8EncodeChar c, b ≠ '('.toUInt8 ∧ b ≠ ')'.toUInt8 := by
          refine fun b hb => ⟨?_, ?_⟩
          · rintro rfl
            exact hopen ((Utf8.mem_encodeChar_iff (by decide)).1 hb)
          · rintro rfl
            exact hclose ((Utf8.mem_encodeChar_iff (by decide)).1 hb)
        rw [balance_append hbytes, ih, String.length_utf8EncodeChar, if_neg hopen]

theorem subscript?_open (t : Text) : subscript? ('[' :: t) =
    if ']' ∈ t then some (t.takeWhile (· != ']'), (t.dropWhile (· != ']')).tail) else none := by
  unfold subscript?
  split_ifs with hm
  · cases hd : t.dropWhile (· != ']') with
    | nil => exact absurd (List.dropWhile_eq_nil_iff.1 hd _ hm) (by decide)
    | cons c rest => simp only [hd, List.tail_cons]
  · have hd : t.dropWhile (· != ']') = [] := by
      refine List.dropWhile_eq_nil_iff.2 fun c hc => bne_iff_ne.2 ?_
      rintro rfl
      exact hm hc
    simp only [hd]

/-- The end of a part is found where its reader ends. -/
structure Agrees (opening : Char) (stop : Text → Nat → Reading Nat)
    (read? : Text → Option (Text × Text)) : Prop where
  opening_lt : opening.toNat < 0x80
  stop_eq : ∀ {t rest : Text} {p : Nat}, LeftAt t p (opening :: rest) →
    stop t p = found ((read? (opening :: rest)).map fun part => p + 1 + part.1.bytes)
  closed : ∀ {t part rest : Text}, read? t = some (part, rest) →
    ∃ closing : Char, closing.toNat < 0x80 ∧ t = opening :: (part ++ closing :: rest)

theorem agrees_parenthesisStop : Agrees '(' parenthesisStop payload? where
  opening_lt := by decide
  stop_eq {t rest p} h := by
    rw [parenthesisStop, h.drop_encode, Utf8.encode_cons, Utf8.encodeChar_of_lt (by decide),
      List.singleton_append, balance_open, balance_encode]
    rfl
  closed h := ⟨')', by decide, payload?_eq_some h⟩

theorem agrees_bracketStop : Agrees '[' bracketStop subscript? where
  opening_lt := by decide
  stop_eq {t rest p} h := by
    have hrest : LeftAt t (p + 1) rest := h.tail (by decide)
    rw [bracketStop, hrest.bytesFrom_eq, ok_bind, Utf8.findIdx?_encode (by decide), subscript?_open]
    by_cases hm : ']' ∈ rest
    · rw [if_pos hm, if_pos hm]
      rfl
    · rw [if_neg hm, if_neg hm]
      rfl
  closed h := ⟨']', by decide, (subscript?_eq_some_iff.1 h).1⟩

theorem optionalAt_eq {opening : Char} {stop : Text → Nat → Reading Nat}
    {read? : Text → Option (Text × Text)} (ha : Agrees opening stop read?) (h : LeftAt t p rest) :
    optionalAt opening stop t p =
      found ((optional opening read? rest).map fun part => (part.1, t.bytes - part.2.bytes)) := by
  by_cases hhead : rest.head? = some opening
  · rw [optionalAt, if_pos ((h.byte?_eq_some_iff ha.opening_lt).2 hhead), optional, if_pos hhead]
    obtain ⟨rest, rfl⟩ := List.head?_eq_some_iff.1 hhead
    rw [ha.stop_eq h]
    cases hread : read? (opening :: rest) with
    | none => rfl
    | some part =>
      obtain ⟨inner, rest'⟩ := part
      obtain ⟨closing, hclosing, he⟩ := ha.closed hread
      rw [he] at h
      have hinner : LeftAt t (p + 1) (inner ++ closing :: rest') := h.tail ha.opening_lt
      have hclose : LeftAt t (p + 1 + inner.bytes) (closing :: rest') := hinner.append
      rw [Option.map_some, found_some_bind, hinner.cut_eq hclose, ok_bind,
        (hclose.tail hclosing).bytes_eq]
      show found _ = found (some (some inner, _ - rest'.bytes))
      rw [Nat.add_sub_cancel]
  · rw [optionalAt, if_neg (mt (h.byte?_eq_some_iff ha.opening_lt).1 hhead), optional,
      if_neg hhead, h.bytes_eq]
    show found _ = found (some (none, p + rest.bytes - rest.bytes))
    rw [Nat.add_sub_cancel]

/-! ### Forms -/

/-- The pseudo-variable whose form was read from a text, with the dollar sign at an offset. -/
def ofForm (after : Text) (offset : Nat) (f : Form) : PseudoVar :=
  ⟨'$' :: after.take (after.length - f.rest.length), f.cls, f.inner, f.index, offset⟩

theorem ofForm_append (used : Text) (offset : Nat) (f : Form) :
    ofForm (used ++ f.rest) offset f = ⟨'$' :: used, f.cls, f.inner, f.index, offset⟩ := by
  rw [ofForm, List.length_append, Nat.add_sub_cancel, List.take_left]

theorem build_form {after : Text} {q : Nat} (h : LeftAt t p ('$' :: after)) (hq : LeftAt t q rest)
    (hused : ∃ used, after = used ++ rest) (cls : Text) (inner index : Option Text) :
    build t p q cls inner index = .ok (ofForm after p ⟨cls, inner, index, rest⟩) := by
  obtain ⟨used, rfl⟩ := hused
  have hmatched : LeftAt t p ('$' :: used ++ rest) := h
  rw [build, hmatched.cut_eq hq, ofForm_append used p ⟨cls, inner, index, rest⟩]
  rfl

theorem bracketedAt_eq (h : LeftAt t p ('$' :: rest)) :
    bracketedAt t p = found ((bracketed? rest).map (ofForm rest p)) := by
  have hrest : LeftAt t (p + 1) rest := h.tail (by decide)
  unfold bracketedAt
  by_cases hopen : rest.head? = some '('
  · obtain ⟨t₀, rfl⟩ := List.head?_eq_some_iff.1 hopen
    have h₀ : LeftAt t (p + 2) t₀ := hrest.tail (by decide)
    rw [hrest.guard_eq (by decide) hopen, found_some_bind, wordStop_eq h₀, bracketed?,
      Option.bind_eq_bind, Option.map_bind]
    -- part by part, with what is left behind each
    refine found_map_bind ?_
    rintro ⟨cls, t₁⟩ hw
    obtain ⟨rfl, -⟩ := word?_eq_some hw
    have h₁ : LeftAt t (p + 2 + cls.bytes) t₁ := h₀.append
    show optionalAt '(' parenthesisStop t (p + 2 + cls.bytes) >>= _ = found (Option.map _ (_ >>= _))
    rw [optionalAt_eq agrees_parenthesisStop h₁, Option.bind_eq_bind, Option.map_bind]
    refine found_map_bind ?_
    rintro ⟨inner, t₂⟩ hp
    obtain ⟨used₁, rfl⟩ := optional_payload?_eq_some hp
    have h₂ : LeftAt t (t.bytes - t₂.bytes) t₂ := h₁.behind
    show optionalAt '[' bracketStop t (t.bytes - t₂.bytes) >>= _ = found (Option.map _ (_ >>= _))
    rw [optionalAt_eq agrees_bracketStop h₂, Option.bind_eq_bind, Option.map_bind]
    refine found_map_bind ?_
    rintro ⟨index, t₃⟩ hs
    obtain ⟨used₂, rfl⟩ := optional_subscript?_eq_some hs
    have h₃ : LeftAt t (t.bytes - t₃.bytes) t₃ := h₂.behind
    dsimp only [Function.comp_apply]
    by_cases hclose : t₃.head? = some ')'
    · obtain ⟨rest, rfl⟩ := List.head?_eq_some_iff.1 hclose
      rw [h₃.guard_eq (by decide) hclose, found_some_bind, h₀.cut_eq h₁, ok_bind]
      have hused : ∃ used, '(' :: (cls ++ (used₁ ++ (used₂ ++ ')' :: rest))) = used ++ rest :=
        ⟨'(' :: (cls ++ (used₁ ++ (used₂ ++ [')']))), by simp⟩
      rw [build_form h (h₃.tail (by decide)) hused, ok_eq]
      rfl
    · rw [h₃.guard_eq_none (by decide) hclose]
      split
      · exact absurd rfl hclose
      · rfl
  · rw [hrest.guard_eq_none (by decide) hopen]
    cases hb : bracketed? rest with
    | none => rfl
    | some f =>
      obtain ⟨t₀, -, -, rfl, -⟩ := bracketed?_eq_some_iff.1 hb
      exact absurd rfl hopen

theorem namedAt_eq (h : LeftAt t p ('$' :: rest)) :
    namedAt t p = found ((named? rest).map (ofForm rest p)) := by
  have hrest : LeftAt t (p + 1) rest := h.tail (by decide)
  unfold namedAt
  rw [wordStop_eq hrest, named?, Option.bind_eq_bind, Option.map_bind]
  refine found_map_bind ?_
  rintro ⟨cls, t₁⟩ hw
  obtain ⟨rfl, -⟩ := word?_eq_some hw
  have h₁ : LeftAt t (p + 1 + cls.bytes) t₁ := hrest.append
  dsimp only [Function.comp_apply]
  rw [hrest.cut_eq h₁, ok_bind, build_form h h₁ ⟨cls, rfl⟩, ok_eq]
  by_cases hopen : t₁.head? = some '('
  · obtain ⟨t₂, rfl⟩ := List.head?_eq_some_iff.1 hopen
    have h₂ : LeftAt t (p + 1 + cls.bytes + 1) t₂ := h₁.tail (by decide)
    rw [h₁.guard_eq (by decide) rfl, found_some_bind, agrees_parenthesisStop.stop_eq h₁]
    cases hp : payload? ('(' :: t₂) with
    | none => rfl
    | some payload =>
      obtain ⟨inner, rest⟩ := payload
      cases payload?_eq_some hp
      have hclose : LeftAt t (p + 1 + cls.bytes + 1 + inner.bytes) (')' :: rest) := h₂.append
      have hused : ∃ used, cls ++ '(' :: (inner ++ ')' :: rest) = used ++ rest :=
        ⟨cls ++ '(' :: (inner ++ [')']), by simp⟩
      rw [Option.map_some, found_some_bind, h₂.cut_eq hclose, ok_bind,
        build_form h (hclose.tail (by decide)) hused, ok_eq]
      rfl
  · have hp : payload? t₁ = none := by
      refine Option.eq_none_iff_forall_ne_some.2 ?_
      rintro ⟨inner, rest⟩ hp
      rw [payload?_eq_some hp] at hopen
      exact hopen rfl
    rw [h₁.guard_eq_none (by decide) hopen, hp, found_none_bind]
    rfl

theorem selectAliasAt_eq (h : LeftAt t p ('$' :: rest)) :
    selectAliasAt t p = found ((selectAlias? rest).map (ofForm rest p)) := by
  have hrest : LeftAt t (p + 1) rest := h.tail (by decide)
  unfold selectAliasAt
  by_cases hopen : rest.head? = some '@'
  · obtain ⟨t₀, rfl⟩ := List.head?_eq_some_iff.1 hopen
    have h₀ : LeftAt t (p + 2) t₀ := hrest.tail (by decide)
    rw [hrest.guard_eq (by decide) hopen, found_some_bind, h₀.bytesFrom_eq, ok_bind,
      Utf8.takeWhile_encode (p := isAliasChar) (fun _ => lt_of_isAliasChar), Utf8.length_encode,
      selectAlias?]
    have hsplit := List.takeWhile_append_dropWhile (p := isAliasChar) (l := t₀)
    cases hpath : t₀.takeWhile isAliasChar with
    | nil => rfl
    | cons c path =>
      rw [hpath] at hsplit
      have hpart : LeftAt t (p + 2) ((c :: path) ++ t₀.dropWhile isAliasChar) := by rwa [hsplit]
      have hused : ∃ used, '@' :: t₀ = used ++ t₀.dropWhile isAliasChar :=
        ⟨'@' :: c :: path, congrArg ('@' :: ·) hsplit.symm⟩
      have hne : Text.bytes (c :: path) ≠ 0 := by
        have := c.utf8Size_pos
        rw [Text.bytes_cons]
        omega
      dsimp only
      rw [guard_eq hne, found_some_bind, hpart.cut_eq hpart.append, ok_bind,
        build_form h hpart.append hused, ok_eq]
      rfl
  · rw [hrest.guard_eq_none (by decide) hopen]
    cases hs : selectAlias? rest with
    | none => rfl
    | some f =>
      exact absurd (selectAlias?_eq_some_iff.1 hs).head? hopen

theorem formAt_eq (h : LeftAt t p ('$' :: rest)) :
    formAt t p = found ((form? rest).map (ofForm rest p)) := by
  rw [formAt, bracketedAt_eq h, namedAt_eq h, selectAliasAt_eq h, found_map_orElse,
    found_map_orElse, form?]

/-! ### The pass -/

theorem lt_bytes_of_byte? {b : UInt8} (hb : byte? t p = some b) : p < t.bytes := by
  rw [← Utf8.length_encode]
  exact (List.getElem?_eq_some_iff.1 hb).1

theorem passFrom_end (h : t.bytes ≤ p) (steps : Nat) : passFrom t steps p = .ok [] := by
  rw [passFrom.eq_def]
  exact if_pos h

theorem passFrom_other {b : UInt8} (hb : byte? t p = some b) (hne : b ≠ '$'.toUInt8) (steps : Nat) :
    passFrom t (steps + 1) p = passFrom t steps (p + 1) := by
  rw [passFrom.eq_def]
  simp only [if_neg (Nat.not_le.2 (lt_bytes_of_byte? hb)), byteAt, hb]
  exact if_pos hne

theorem passFrom_pair (hb : byte? t p = some '$'.toUInt8)
    (hb' : byte? t (p + 1) = some '$'.toUInt8) (steps : Nat) :
    passFrom t (steps + 1) p = passFrom t steps (p + 2) := by
  rw [passFrom.eq_def]
  simp only [if_neg (Nat.not_le.2 (lt_bytes_of_byte? hb)), byteAt, hb, if_pos hb']
  rfl

theorem passFrom_lone (hb : byte? t p = some '$'.toUInt8)
    (hb' : byte? t (p + 1) ≠ some '$'.toUInt8) (hf : formAt t p = found none) (steps : Nat) :
    passFrom t (steps + 1) p = passFrom t steps (p + 1) := by
  rw [passFrom.eq_def]
  simp only [if_neg (Nat.not_le.2 (lt_bytes_of_byte? hb)), byteAt, hb, if_neg hb', hf]
  rfl

theorem passFrom_form {v : PseudoVar} {vs : List PseudoVar} {steps : Nat}
    (hb : byte? t p = some '$'.toUInt8) (hb' : byte? t (p + 1) ≠ some '$'.toUInt8)
    (hf : formAt t p = found (some v)) (hvs : passFrom t steps (v.offset + v.size) = .ok vs) :
    passFrom t (steps + 1) p = .ok (v :: vs) := by
  rw [passFrom.eq_def]
  simp only [if_neg (Nat.not_le.2 (lt_bytes_of_byte? hb)), byteAt, hb, if_neg hb', hf]
  show (passFrom t steps (v.offset + v.size) >>= fun vs => pure (v :: vs)) = _
  rw [hvs]
  rfl

/-- The pass goes byte by byte behind a character that is no dollar sign. -/
theorem passFrom_plain {n : Nat} (hbytes : ∀ i < n, ∃ b, byte? t (p + i) = some b ∧ b ≠ '$'.toUInt8)
    (steps : Nat) : passFrom t (steps + n) p = passFrom t steps (p + n) := by
  induction n generalizing p with
  | zero => rfl
  | succ n ih =>
    obtain ⟨b, hb, hne⟩ := hbytes 0 (Nat.succ_pos n)
    rw [Nat.add_zero] at hb
    rw [← Nat.add_assoc, passFrom_other hb hne, ih fun i hi => ?_]
    · rw [Nat.add_assoc, Nat.add_comm 1]
    · rw [Nat.add_assoc, Nat.add_comm 1]
      exact hbytes (i + 1) (Nat.succ_lt_succ hi)

theorem LeftAt.byte?_dollar (h : LeftAt t p ('$' :: rest)) : byte? t p = some '$'.toUInt8 :=
  (h.byte?_eq_some_iff (by decide)).2 rfl

/-- The pass over bytes is the pass over characters. -/
theorem passFrom_eq {steps : Nat} (h : LeftAt t p rest) (hsteps : rest.bytes ≤ steps) :
    passFrom t steps p = .ok (scanFrom 0 p rest) := by
  induction rest using scan_induction generalizing p steps with
  | nil => exact passFrom_end h.bytes_eq.le steps
  | plain c rest hc ih =>
    -- one step for each byte; in the other cases one step for all that is passed over
    rw [Text.bytes_cons] at hsteps
    obtain ⟨more, rfl⟩ := Nat.exists_eq_add_of_le hsteps
    have hbytes : ∀ i < c.utf8Size, ∃ b, byte? t (p + i) = some b ∧ b ≠ '$'.toUInt8 := by
      intro i hi
      rw [← String.length_utf8EncodeChar] at hi
      refine ⟨(String.utf8EncodeChar c)[i], ?_, fun he => ?_⟩
      · rw [h.byte?_add, Utf8.encode_cons, List.getElem?_append_left hi, List.getElem?_eq_getElem hi]
      · exact hc ((Utf8.mem_encodeChar_iff (by decide)).1 (he ▸ List.getElem_mem hi))
    rw [scanFrom_plain hc, Nat.add_assoc, Nat.add_comm, passFrom_plain hbytes]
    exact ih h.cons (Nat.le_add_right ..)
  | pair rest ih =>
    simp only [Text.bytes_cons, utf8Size_dollar] at hsteps
    obtain ⟨steps, rfl⟩ : ∃ n, steps = n + 1 := ⟨steps - 1, by omega⟩
    have hnext : LeftAt t (p + 1) ('$' :: rest) := h.tail (by decide)
    rw [scanFrom_pair, passFrom_pair h.byte?_dollar hnext.byte?_dollar]
    exact ih (hnext.tail (by decide)) (by omega)
  | lone rest hhead hf ih =>
    rw [Text.bytes_cons, utf8Size_dollar] at hsteps
    obtain ⟨steps, rfl⟩ : ∃ n, steps = n + 1 := ⟨steps - 1, by omega⟩
    have hnext : LeftAt t (p + 1) rest := h.tail (by decide)
    have hform : formAt t p = found none := by rw [formAt_eq h, hf, Option.map_none]
    rw [scanFrom_lone hhead hf, passFrom_lone h.byte?_dollar
      (mt (hnext.byte?_eq_some_iff (by decide)).1 hhead) hform]
    exact ih hnext (by omega)
  | form used f hhead hf _ ih =>
    rw [Text.bytes_cons, Text.bytes_append, utf8Size_dollar] at hsteps
    obtain ⟨steps, rfl⟩ : ∃ n, steps = n + 1 := ⟨steps - 1, by omega⟩
    have hnext : LeftAt t (p + 1) (used ++ f.rest) := h.tail (by decide)
    have hform : formAt t p = found (some ⟨'$' :: used, f.cls, f.inner, f.index, p⟩) := by
      rw [formAt_eq h, hf, Option.map_some, ofForm_append]
    have hstop : p + Text.bytes ('$' :: used) = p + 1 + used.bytes := by
      rw [Text.bytes_cons, utf8Size_dollar, Nat.add_assoc]
    rw [scanFrom_form hhead hf]
    refine passFrom_form h.byte?_dollar
      (mt (hnext.byte?_eq_some_iff (by decide)).1 hhead) hform ?_
    show passFrom t steps (p + Text.bytes ('$' :: used)) = _
    rw [hstop]
    exact ih hnext.append (by omega)

end

/-! ### Matches in their text -/

theorem Matches.ne_nil {t : Text} {f : Form} (h : Matches t f) : t ≠ [] := by
  rintro rfl
  rcases h with h | h | h
  · cases h.head?
  · obtain ⟨c, hc, -⟩ := h.head?
    cases hc
  · cases h.head?

/-- A text of letters, digits and underscores, all below 128, that does not start with a digit. -/
structure IsIdentifier (word : Text) : Prop where
  start : ∃ c ∈ word.head?, isWordStart c = true
  chars : ∀ c ∈ word, isWordChar c = true ∧ c.toNat < 0x80

theorem IsWord.isIdentifier {word rest : Text} (h : IsWord word rest) : IsIdentifier word :=
  ⟨h.start, fun c hc => ⟨h.chars c hc, lt_of_isWordChar (h.chars c hc)⟩⟩

/-- A match stands in the text where it says. -/
structure Stands (t : Text) (v : PseudoVar) : Prop where
  two_le_size : 2 ≤ v.size
  stop_le : v.span.stop ≤ t.bytes
  isBoundary_start : t.isBoundary v.span.start = true
  isBoundary_stop : t.isBoundary v.span.stop = true
  slice_eq : t.slice v.span = v.matched
  dollar : v.matched.head? = some '$'
  single : v.matched.tail.head? ≠ some '$'
  isBare_iff : v.isBare = true ↔ v.inner = none
  identifier : IsIdentifier v.cls

theorem stands_of_mem_scan {t : Text} {v : PseudoVar} (hv : v ∈ scan t) : Stands t v := by
  obtain ⟨p, used, f, rfl, hd, hm, -⟩ := mem_scanFrom_iff.1 hv
  rw [Nat.zero_add]
  have hstart : LeftAt t p ('$' :: used ++ f.rest) := hd.exists_front
  have hstop : LeftAt t (p + Text.bytes ('$' :: used)) f.rest := hstart.append
  obtain ⟨c, used', rfl⟩ := List.exists_cons_of_ne_nil hm.alone.ne_nil
  obtain ⟨_, hword⟩ := hm.isWord_cls
  exact {
    two_le_size := by
      have := c.utf8Size_pos
      rw [size, Text.bytes_cons, Text.bytes_cons, utf8Size_dollar]
      omega
    stop_le := by
      rw [hstop.bytes_eq]
      exact Nat.le_add_right ..
    isBoundary_start := hstart.isBoundary
    isBoundary_stop := hstop.isBoundary
    slice_eq := hstart.slice_eq
    dollar := rfl
    single := hm.alone.head?_ne_dollar
    isBare_iff := Option.isNone_iff_eq_none
    identifier := hword.isIdentifier }

/-- **The scanner is safe.**  The pass over the bytes of a text has no fault: it is at the end after as
many steps as there are bytes at most, looks at none behind the end, cuts out nothing that does not
start and end between characters, and closes no parenthesis that is not open.  It finds what the
scanner finds.  The matches stand where they say, one behind another. -/
theorem scan_safe (t : Text) :
    scanBytes t = .ok (scan t) ∧
    (scan t).Pairwise (fun v w => v.offset < w.offset ∧ v.span.stop ≤ w.span.start) ∧
    ∀ v ∈ scan t, Stands t v := by
  refine ⟨passFrom_eq ⟨[], rfl, rfl⟩ (Nat.le_refl _), ?_, fun v => stands_of_mem_scan⟩
  refine (pairwise_scanFrom t 0).imp_of_mem fun hv hw hle => ⟨?_, hle⟩
  exact Nat.lt_of_lt_of_le (bounds_of_mem_scanFrom hv).2.1 hle

/-- Payloads and subscripts with characters of more than one byte. -/
theorem scan_safe_nonAscii :
    let t : Text := "ü$f(ü(x))$$$(a[é])".toList
    let v : PseudoVar := ⟨"$(a[é])".toList, ['a'], none, some ['é'], 13⟩
    scanBytes t = .ok (scan t) ∧ v ∈ scan t ∧ Stands t v := by
  intro t v
  obtain ⟨hbytes, -, hstands⟩ := scan_safe t
  have hv : v ∈ scan t := by decide
  exact ⟨hbytes, hv, hstands v hv⟩

/-- Each fault is one that the checks do find. -/
example : byteAt [] 0 = .error .outOfRange ∧ cut ['é'] 0 1 = .error .cutCharacter ∧
    balance 0 0 [')'.toUInt8] = .error .unopened ∧ passFrom ['a'] 0 0 = .error .unfinished :=
  ⟨rfl, rfl, rfl, rfl⟩

end RouteScript.PseudoVar
