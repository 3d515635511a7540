import Mathlib.Data.List.Basic
import RouteScript.Text.Utf8

/-!
# The UTF-8 form of a text

Reading the UTF-8 form of a text gives the text back, whichever way ill-formed pieces are treated:
there are none.

* `pieces_encodeChar`: the bytes of a character are read as that character, whatever follows.
* `decodeLossy_encode`: the text is read back.
* `length_encode`: the size of a text is the number of its bytes.
* `append_of_encode_eq`, `cut_of_isLead`: bytes are cut between characters behind the bytes of a text,
  and in front of a byte with which characters start.
* `encodeChar_cases`: bytes below 128 are characters, and parts of no others.
* `head?_encode_eq_some_iff`, `takeWhile_encode`, `findIdx?_encode`: so a search for such characters
  may go by bytes.
-/

namespace RouteScript.Utf8

theorem pieces_cons (state : Option Pending) (b : UInt8) (bs : List UInt8) :
    pieces state (b :: bs) = (step state b.toNat).1 ++ pieces (step state b.toNat).2 bs := by
  cases state <;> rfl

theorem toNat_ofNat {n : Nat} (h : n < 256) : (UInt8.ofNat n).toNat = n := by
  rw [UInt8.toNat_ofNat']
  exact Nat.mod_eq_of_lt h

/-- The last byte of a character, within its bounds. -/
theorem step_last {value low high n : Nat} (hl : low ≤ n) (hh : n ≤ high) :
    step (some ⟨value, 1, low, high⟩) n =
      ([some (Char.ofNat (value * 0x40 + (n - 0x80)))], none) := by
  simp only [step, Pending.proceed, hl, hh, and_self, if_true, Nat.le_refl]

/-- A byte inside a character, within its bounds, brings six more bits. -/
theorem step_more {value missing low high n : Nat} (hl : low ≤ n) (hh : n ≤ high) :
    step (some ⟨value, missing + 2, low, high⟩) n =
      ([], some ⟨value * 0x40 + (n - 0x80), missing + 1, 0x80, 0xBF⟩) := by
  have hm : ¬ missing + 2 ≤ 1 := by omega
  simp only [step, Pending.proceed, hl, hh, and_self, if_true, if_neg hm]
  rfl

theorem step_lead {n : Nat} {p : Pending} (hn : 0x80 ≤ n) (h : Pending.ofLead? n = some p) :
    step none n = ([], some p) := by
  simp only [step, start, if_neg (Nat.not_lt.2 hn), h]

theorem pieces_two {v : Nat} (h : 127 < v) (h' : v ≤ 2047) (bs : List UInt8) :
    pieces none (UInt8.ofNat (v / 64 % 32 + 192) :: UInt8.ofNat (v % 64 + 128) :: bs) =
      some (Char.ofNat v) :: pieces none bs := by
  have hlead : Pending.ofLead? (v / 64 % 32 + 192) = some ⟨v / 64, 1, 0x80, 0xBF⟩ := by
    unfold Pending.ofLead?
    have hm : v / 64 % 32 + 192 - 192 = v / 64 := by omega
    rw [if_pos ⟨by omega, by omega⟩, hm]
  rw [pieces_cons, pieces_cons, toNat_ofNat (by omega), toNat_ofNat (by omega),
    step_lead (by omega) hlead, step_last (by omega) (by omega)]
  have hv : v / 64 * 64 + (v % 64 + 128 - 128) = v := by omega
  simp only [List.nil_append, List.cons_append, hv]

theorem pieces_three {v : Nat} (h : 2047 < v) (h' : v ≤ 65535) (hs : v < 0xD800 ∨ 0xDFFF < v)
    (bs : List UInt8) :
    pieces none (UInt8.ofNat (v / 4096 % 16 + 224) :: UInt8.ofNat (v / 64 % 64 + 128) ::
      UInt8.ofNat (v % 64 + 128) :: bs) = some (Char.ofNat v) :: pieces none bs := by
  obtain ⟨low, high, hl, hh, hlead⟩ : ∃ low high, low ≤ v / 64 % 64 + 128 ∧
      v / 64 % 64 + 128 ≤ high ∧
      Pending.ofLead? (v / 4096 % 16 + 224) = some ⟨v / 4096, 2, low, high⟩ := by
    have hm : v / 4096 % 16 + 224 - 224 = v / 4096 := by omega
    unfold Pending.ofLead?
    rw [if_neg (by omega)]
    by_cases h₁ : v / 4096 % 16 + 224 = 0xE0
    · exact ⟨0xA0, 0xBF, by omega, by omega, by rw [if_pos h₁, hm]⟩
    by_cases h₂ : v / 4096 % 16 + 224 = 0xED
    · exact ⟨0x80, 0x9F, by omega, by omega, by rw [if_neg h₁, if_pos h₂, hm]⟩
    · exact ⟨0x80, 0xBF, by omega, by omega, by
        rw [if_neg h₁, if_neg h₂, if_pos ⟨by omega, by omega⟩, hm]⟩
  rw [pieces_cons, pieces_cons, pieces_cons, toNat_ofNat (by omega), toNat_ofNat (by omega),
    toNat_ofNat (by omega), step_lead (by omega) hlead, step_more hl hh,
    step_last (by omega) (by omega)]
  have hv : (v / 4096 * 64 + (v / 64 % 64 + 128 - 128)) * 64 + (v % 64 + 128 - 128) = v := by omega
  simp only [List.nil_append, List.cons_append, hv]

theorem pieces_four {v : Nat} (h : 65535 < v) (h' : v < 0x110000) (bs : List UInt8) :
    pieces none (UInt8.ofNat (v / 262144 % 8 + 240) :: UInt8.ofNat (v / 4096 % 64 + 128) ::
      UInt8.ofNat (v / 64 % 64 + 128) :: UInt8.ofNat (v % 64 + 128) :: bs) =
        some (Char.ofNat v) :: pieces none bs := by
  obtain ⟨low, high, hl, hh, hlead⟩ : ∃ low high, low ≤ v / 4096 % 64 + 128 ∧
      v / 4096 % 64 + 128 ≤ high ∧
      Pending.ofLead? (v / 262144 % 8 + 240) = some ⟨v / 262144, 3, low, high⟩ := by
    have hm : v / 262144 % 8 + 240 - 240 = v / 262144 := by omega
    unfold Pending.ofLead?
    rw [if_neg (by omega), if_neg (by omega), if_neg (by omega), if_neg (by omega)]
    by_cases h₁ : v / 262144 % 8 + 240 = 0xF0
    · exact ⟨0x90, 0xBF, by omega, by omega, by rw [if_pos h₁, hm]⟩
    by_cases h₂ : 0xF1 ≤ v / 262144 % 8 + 240 ∧ v / 262144 % 8 + 240 ≤ 0xF3
    · exact ⟨0x80, 0xBF, by omega, by omega, by rw [if_neg h₁, if_pos h₂, hm]⟩
    · exact ⟨0x80, 0x8F, by omega, by omega, by
        rw [if_neg h₁, if_neg h₂, if_pos (by omega), hm]⟩
  rw [pieces_cons, pieces_cons, pieces_cons, pieces_cons, toNat_ofNat (by omega),
    toNat_ofNat (by omega), toNat_ofNat (by omega), toNat_ofNat (by omega),
    step_lead (by omega) hlead, step_more hl hh, step_more (by omega) (by omega),
    step_last (by omega) (by omega)]
  have hv : ((v / 262144 * 64 + (v / 4096 % 64 + 128 - 128)) * 64 + (v / 64 % 64 + 128 - 128)) * 64
      + (v % 64 + 128 - 128) = v := by omega
  simp only [List.nil_append, List.cons_append, hv]

/-- The bytes of a character are read as that character. -/
theorem pieces_encodeChar (c : Char) (bs : List UInt8) :
    pieces none (String.utf8EncodeChar c ++ bs) = some c :: pieces none bs := by
  have hc : Char.ofNat c.val.toNat = c := c.ofNat_toNat
  have hv : c.val.toNat < 0xD800 ∨ 0xDFFF < c.val.toNat ∧ c.val.toNat < 0x110000 := c.valid
  unfold String.utf8EncodeChar
  simp only
  split
  · rename_i h
    rw [List.cons_append, List.nil_append, pieces_cons, toNat_ofNat (by omega)]
    simp only [step, start, if_pos (show c.val.toNat < 0x80 by omega), hc]
    rfl
  split
  · exact (pieces_two (by omega) (by omega) bs).trans (by rw [hc])
  split
  · exact (pieces_three (by omega) (by omega) (by omega) bs).trans (by rw [hc])
  · exact (pieces_four (by omega) (by omega) bs).trans (by rw [hc])

theorem pieces_encode_append (t : Text) (bs : List UInt8) :
    pieces none (encode t ++ bs) = t.map some ++ pieces none bs := by
  induction t with
  | nil => rfl
  | cons c t ih =>
    rw [encode, List.flatMap_cons, List.append_assoc, pieces_encodeChar, ← encode, ih, List.map_cons,
      List.cons_append]

theorem pieces_encode (t : Text) : pieces none (encode t) = t.map some := by
  have h := pieces_encode_append t []
  rwa [List.append_nil, show pieces none [] = [] from rfl, List.append_nil] at h

/-- A text is read back from its UTF-8 form. -/
theorem decodeLossy_encode (t : Text) : decodeLossy (encode t) = t := by
  rw [decodeLossy, pieces_encode, List.map_map]
  exact List.map_id t

theorem encode_append (s t : Text) : encode (s ++ t) = encode s ++ encode t :=
  List.flatMap_append

/-- The size of a text is the number of its bytes. -/
theorem length_encode (t : Text) : (encode t).length = t.bytes := by
  induction t with
  | nil => rfl
  | cons c t ih =>
    rw [encode, List.flatMap_cons, List.length_append, ← encode, ih, Text.bytes_cons,
      String.length_utf8EncodeChar]

/-! ### Where characters start -/

/-- Bytes that start with those of a text are the bytes of a text that starts with it. -/
theorem append_of_encode_eq {t front : Text} {bs : List UInt8} (h : encode t = encode front ++ bs) :
    ∃ rest, t = front ++ rest ∧ bs = encode rest := by
  have hp : t.map some = front.map some ++ pieces none bs := by
    rw [← pieces_encode, h, pieces_encode_append]
  obtain ⟨t₁, rest, rfl, h₁, -⟩ := List.map_eq_append_iff.1 hp
  have hfront : t₁ = front := List.map_injective_iff.2 (fun _ _ => Option.some.inj) h₁
  subst hfront
  rw [encode_append] at h
  exact ⟨rest, rfl, (List.append_cancel_left h).symm⟩

/-- A byte with which a character may start. -/
def IsLead (b : UInt8) : Prop := b.toNat < 0x80 ∨ 0xC0 ≤ b.toNat

/-- Only the first byte of a character is one with which characters start. -/
theorem encodeChar_eq_cons (c : Char) :
    ∃ b bs, String.utf8EncodeChar c = b :: bs ∧ IsLead b ∧ ∀ x ∈ bs, ¬ IsLead x := by
  have hlead : ∀ n : Nat, 0xC0 ≤ n → n < 256 → IsLead (UInt8.ofNat n) := fun n hn hn' => by
    rw [IsLead, toNat_ofNat hn']
    exact .inr hn
  have hnext : ∀ n : Nat, ¬ IsLead (UInt8.ofNat (n % 64 + 128)) := fun n => by
    rw [IsLead, toNat_ofNat (by omega)]
    omega
  have hnone : ∀ x ∈ ([] : List UInt8), ¬ IsLead x := fun x hx => by cases hx
  unfold String.utf8EncodeChar
  simp only
  split
  · refine ⟨_, [], rfl, ?_, hnone⟩
    rw [IsLead, toNat_ofNat (by omega)]
    omega
  split
  · refine ⟨_, _, rfl, hlead _ (by omega) (by omega), ?_⟩
    exact List.forall_mem_cons.2 ⟨hnext _, hnone⟩
  split
  · refine ⟨_, _, rfl, hlead _ (by omega) (by omega), ?_⟩
    exact List.forall_mem_cons.2 ⟨hnext _, List.forall_mem_cons.2 ⟨hnext _, hnone⟩⟩
  · refine ⟨_, _, rfl, hlead _ (by omega) (by omega), ?_⟩
    exact List.forall_mem_cons.2
      ⟨hnext _, List.forall_mem_cons.2 ⟨hnext _, List.forall_mem_cons.2 ⟨hnext _, hnone⟩⟩⟩

theorem isLead_of_head?_encode {t : Text} {b : UInt8} (h : (encode t).head? = some b) :
    IsLead b := by
  cases t with
  | nil => cases h
  | cons c t =>
    obtain ⟨lead, more, hc, hlead, -⟩ := encodeChar_eq_cons c
    rw [encode, List.flatMap_cons, hc, List.cons_append, List.head?_cons] at h
    cases h
    exact hlead

/-- A cut of the bytes in front of a byte with which characters start is a cut of the text. -/
theorem cut_of_isLead {t : Text} {bs rest : List UInt8} (h : encode t = bs ++ rest)
    (hl : ∀ b, rest.head? = some b → IsLead b) :
    ∃ front back, t = front ++ back ∧ bs = encode front ∧ rest = encode back := by
  induction t generalizing bs with
  | nil =>
    obtain ⟨hb, hr⟩ := List.nil_eq_append_iff.1 h
    exact ⟨[], [], rfl, hb, hr⟩
  | cons c t ih =>
    cases bs with
    | nil => exact ⟨[], c :: t, rfl, rfl, h.symm⟩
    | cons b bs =>
      obtain ⟨lead, more, hc, -, hmore⟩ := encodeChar_eq_cons c
      rw [encode, List.flatMap_cons, ← encode] at h
      rcases List.append_eq_append_iff.1 h with ⟨as, hbs, hrest⟩ | ⟨as, hbs, hrest⟩
      · obtain ⟨front, back, rfl, has, hback⟩ := ih hrest
        refine ⟨c :: front, back, rfl, ?_, hback⟩
        rw [hbs, has, encode, encode, List.flatMap_cons]
      · cases as with
        | nil =>
          rw [List.append_nil] at hbs
          refine ⟨[c], t, rfl, ?_, hrest⟩
          rw [← hbs, encode, List.flatMap_cons, List.flatMap_nil, List.append_nil]
        | cons a as =>
          -- the cut would be inside the character, in front of a byte that continues it
          have ha : a ∈ more := by
            rw [hc, List.cons_append] at hbs
            rw [(List.cons_eq_cons.1 hbs).2]
            exact List.mem_append_right _ List.mem_cons_self
          exact absurd (hl a (by rw [hrest]; rfl)) (hmore a ha)

/-! ### Bytes that are characters -/

/-- A character below 128 is its own byte, and all bytes of another one are at least 128. -/
theorem encodeChar_cases (c : Char) :
    c.toNat < 0x80 ∧ String.utf8EncodeChar c = [c.toUInt8] ∨
      0x80 ≤ c.toNat ∧ ∀ b ∈ String.utf8EncodeChar c, 0x80 ≤ b.toNat := by
  have hbyte : ∀ n : Nat, 0x80 ≤ n → n < 256 → 0x80 ≤ (UInt8.ofNat n).toNat := fun n hn hn' => by
    rwa [toNat_ofNat hn']
  have hnone : ∀ b ∈ ([] : List UInt8), 0x80 ≤ b.toNat := fun b hb => by cases hb
  unfold String.utf8EncodeChar Char.toNat
  simp only
  split
  · exact .inl ⟨by omega, rfl⟩
  right
  refine ⟨by omega, ?_⟩
  split
  · exact List.forall_mem_cons.2 ⟨hbyte _ (by omega) (by omega),
      List.forall_mem_cons.2 ⟨hbyte _ (by omega) (by omega), hnone⟩⟩
  split
  · exact List.forall_mem_cons.2 ⟨hbyte _ (by omega) (by omega),
      List.forall_mem_cons.2 ⟨hbyte _ (by omega) (by omega),
        List.forall_mem_cons.2 ⟨hbyte _ (by omega) (by omega), hnone⟩⟩⟩
  · exact List.forall_mem_cons.2 ⟨hbyte _ (by omega) (by omega),
      List.forall_mem_cons.2 ⟨hbyte _ (by omega) (by omega),
        List.forall_mem_cons.2 ⟨hbyte _ (by omega) (by omega),
          List.forall_mem_cons.2 ⟨hbyte _ (by omega) (by omega), hnone⟩⟩⟩⟩

theorem encodeChar_of_lt {c : Char} (hc : c.toNat < 0x80) :
    String.utf8EncodeChar c = [c.toUInt8] := by
  rcases encodeChar_cases c with ⟨-, h⟩ | ⟨h, -⟩
  · exact h
  · omega

theorem utf8Size_of_lt {c : Char} (hc : c.toNat < 0x80) : c.utf8Size = 1 := by
  rw [← String.length_utf8EncodeChar, encodeChar_of_lt hc]
  rfl

theorem toNat_toUInt8 {c : Char} (hc : c.toNat < 0x80) : c.toUInt8.toNat = c.toNat :=
  toNat_ofNat (Nat.lt_trans hc (by decide))

theorem ofUInt8_toUInt8 {c : Char} (hc : c.toNat < 0x80) : Char.ofUInt8 c.toUInt8 = c := by
  refine Char.ext (UInt32.toNat_inj.1 ?_)
  exact (UInt8.toNat_toUInt32 _).trans (toNat_toUInt8 hc)

/-- A byte that is a character stands for no other one. -/
theorem mem_encodeChar_iff {c d : Char} (hc : c.toNat < 0x80) :
    c.toUInt8 ∈ String.utf8EncodeChar d ↔ d = c := by
  constructor
  · intro h
    rcases encodeChar_cases d with ⟨hd, he⟩ | ⟨-, hge⟩
    · rw [he, List.mem_singleton] at h
      rw [← ofUInt8_toUInt8 hd, ← h, ofUInt8_toUInt8 hc]
    · have := hge _ h
      rw [toNat_toUInt8 hc] at this
      omega
  · rintro rfl
    rw [encodeChar_of_lt hc]
    exact List.mem_singleton_self _

theorem encode_cons (c : Char) (t : Text) :
    encode (c :: t) = String.utf8EncodeChar c ++ encode t := List.flatMap_cons

theorem head?_encode_eq_some_iff {c : Char} (hc : c.toNat < 0x80) {t : Text} :
    (encode t).head? = some c.toUInt8 ↔ t.head? = some c := by
  cases t with
  | nil =>
    constructor <;> intro h <;> cases h
  | cons d t =>
    obtain ⟨lead, more, hd, -, -⟩ := encodeChar_eq_cons d
    rw [encode_cons, hd, List.cons_append, List.head?_cons, List.head?_cons, Option.some.injEq,
      Option.some.injEq]
    constructor
    · rintro rfl
      refine (mem_encodeChar_iff hc).1 ?_
      rw [hd]
      exact List.mem_cons_self
    · rintro rfl
      rw [encodeChar_of_lt hc] at hd
      exact (List.cons_eq_cons.1 hd).1.symm

/-- The first byte of a character passes a test of characters below 128 if the character does. -/
theorem ofUInt8_lead {p : Char → Bool} (hp : ∀ c, p c = true → c.toNat < 0x80) {c : Char} {b : UInt8}
    {bs : List UInt8} (h : String.utf8EncodeChar c = b :: bs) : p (.ofUInt8 b) = p c := by
  rcases encodeChar_cases c with ⟨hc, he⟩ | ⟨hc, hge⟩
  · rw [he] at h
    cases h
    rw [ofUInt8_toUInt8 hc]
  · have hb := hge b (by rw [h]; exact List.mem_cons_self)
    have hnat : (Char.ofUInt8 b).toNat = b.toNat := UInt8.toNat_toUInt32 b
    rw [Bool.eq_iff_iff]
    constructor
    · intro h
      have := hp _ h
      omega
    · intro h
      have := hp _ h
      omega

/-- The longest front part of characters below 128 that pass a test, by bytes. -/
theorem takeWhile_encode {p : Char → Bool} (hp : ∀ c, p c = true → c.toNat < 0x80) (t : Text) :
    (encode t).takeWhile (fun b => p (.ofUInt8 b)) = encode (t.takeWhile p) := by
  induction t with
  | nil => rfl
  | cons c t ih =>
    obtain ⟨b, bs, hb, -, -⟩ := encodeChar_eq_cons c
    have hlead := ofUInt8_lead hp hb
    by_cases hc : p c = true
    · rw [hc] at hlead
      rw [List.takeWhile_cons_of_pos hc, encode_cons, encode_cons, ← ih]
      rw [encodeChar_of_lt (hp c hc)] at hb ⊢
      cases hb
      exact List.takeWhile_cons_of_pos hlead
    · rw [List.takeWhile_cons_of_neg hc, encode_cons, hb, List.cons_append]
      exact List.takeWhile_cons_of_neg (by rwa [hlead])

/-- The place of the first character of a kind, by bytes. -/
theorem findIdx?_encode {c : Char} (hc : c.toNat < 0x80) (t : Text) :
    (encode t).findIdx? (· == c.toUInt8) =
      if c ∈ t then some (Text.bytes (t.takeWhile (· != c))) else none := by
  induction t with
  | nil => rfl
  | cons d t ih =>
    by_cases hd : d = c
    · subst hd
      rw [encode_cons, encodeChar_of_lt hc, if_pos List.mem_cons_self, List.singleton_append,
        List.findIdx?_cons, if_pos (beq_self_eq_true _),
        List.takeWhile_cons_of_neg (by simp)]
      rfl
    · have hnone : (String.utf8EncodeChar d).findIdx? (· == c.toUInt8) = none := by
        rw [List.findIdx?_eq_none_iff]
        intro b hb
        rw [beq_eq_false_iff_ne]
        rintro rfl
        exact hd ((mem_encodeChar_iff hc).1 hb)
      rw [encode_cons, List.findIdx?_append, hnone, Option.none_or, ih,
        List.takeWhile_cons_of_pos (by simpa using hd)]
      by_cases hm : c ∈ t
      · rw [if_pos hm, if_pos (List.mem_cons_of_mem d hm), Option.map_some, Text.bytes_cons,
          String.length_utf8EncodeChar, Nat.add_comm]
      · rw [if_neg hm, if_neg (by simp [Ne.symm hd, hm]), Option.map_none]

end RouteScript.Utf8
