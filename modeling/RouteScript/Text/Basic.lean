/-!
# Texts and spans

A text is its list of characters; its offsets and sizes count the bytes of its UTF-8 form.  An
offset inside a character stands for the start of that character, so `takeBytes` and `dropBytes`
never cut one.

* `takeBytes_append_dropBytes`: the two parts at an offset make up the text.
* `bytes_append`: sizes add up.
-/

namespace RouteScript

/-- A text is the list of its characters. -/
abbrev Text := List Char

/-- The bytes of a text from `start` up to, not including, `stop`. -/
structure Span where
  start : Nat
  stop : Nat
deriving DecidableEq, Repr, Inhabited

namespace Span

/-- Number of bytes. -/
def size (s : Span) : Nat := s.stop - s.start

/-- The byte at `offset` belongs to the span. -/
def Contains (s : Span) (offset : Nat) : Prop := s.start ≤ offset ∧ offset < s.stop

instance (s : Span) (offset : Nat) : Decidable (s.Contains offset) :=
  inferInstanceAs (Decidable (_ ∧ _))

/-- The offset lies in the span or right behind it. -/
def Touches (s : Span) (offset : Nat) : Prop := s.start ≤ offset ∧ offset ≤ s.stop

instance (s : Span) (offset : Nat) : Decidable (s.Touches offset) :=
  inferInstanceAs (Decidable (_ ∧ _))

/-- Every byte of `inner` is one of `outer`, and an empty `inner` lies between its ends. -/
def Encloses (outer inner : Span) : Prop := outer.start ≤ inner.start ∧ inner.stop ≤ outer.stop

instance (outer inner : Span) : Decidable (outer.Encloses inner) :=
  inferInstanceAs (Decidable (_ ∧ _))

/-- The span moved `n` bytes towards the end. -/
def shift (s : Span) (n : Nat) : Span := ⟨s.start + n, s.stop + n⟩

end Span

namespace Text

/-- Size of the UTF-8 form. -/
def bytes : Text → Nat
  | [] => 0
  | c :: t => c.utf8Size + bytes t

@[simp] theorem bytes_nil : bytes [] = 0 := rfl

@[simp] theorem bytes_cons (c : Char) (t : Text) : bytes (c :: t) = c.utf8Size + bytes t := rfl

@[simp] theorem bytes_append (s t : Text) : bytes (s ++ t) = bytes s + bytes t := by
  induction s with
  | nil => simp
  | cons c s ih => simp [ih, Nat.add_assoc]

/-- The longest front part of at most `n` bytes. -/
def takeBytes : Nat → Text → Text
  | _, [] => []
  | n, c :: t => if c.utf8Size ≤ n then c :: takeBytes (n - c.utf8Size) t else []

/-- What `takeBytes` leaves. -/
def dropBytes : Nat → Text → Text
  | _, [] => []
  | n, c :: t => if c.utf8Size ≤ n then dropBytes (n - c.utf8Size) t else c :: t

theorem takeBytes_append_dropBytes (n : Nat) (t : Text) : takeBytes n t ++ dropBytes n t = t := by
  induction t generalizing n with
  | nil => rfl
  | cons c t ih => by_cases h : c.utf8Size ≤ n <;> simp [takeBytes, dropBytes, h, ih]

theorem bytes_takeBytes_le (n : Nat) (t : Text) : bytes (takeBytes n t) ≤ n := by
  induction t generalizing n with
  | nil => simp [takeBytes]
  | cons c t ih =>
    by_cases h : c.utf8Size ≤ n
    · have := ih (n - c.utf8Size)
      simp [takeBytes, h]; omega
    · simp [takeBytes, h]

/-- The text at a span. -/
def slice (t : Text) (s : Span) : Text := takeBytes s.size (dropBytes s.start t)

/-- The name, key or message spelled by the text at a span. -/
def sliceString (t : Text) (s : Span) : String := String.ofList (t.slice s)

/-- Whether a character starts or the text ends at `offset`. -/
def isBoundary : Text → Nat → Bool
  | _, 0 => true
  | [], _ => false
  | c :: t, n => c.utf8Size ≤ n && isBoundary t (n - c.utf8Size)

/-- The parts between the separators, one more than there are separators. -/
def splitOn (sep : Char) : Text → List Text
  | [] => [[]]
  | c :: t =>
    if c = sep then [] :: splitOn sep t
    else match splitOn sep t with
      | [] => [[c]]
      | part :: parts => (c :: part) :: parts

/-- The parts with the separator written between them. -/
def joinWith (sep : Char) : List Text → Text
  | [] => []
  | [part] => part
  | part :: parts => part ++ sep :: joinWith sep parts

theorem splitOn_ne_nil (sep : Char) (t : Text) : splitOn sep t ≠ [] := by
  cases t with
  | nil => simp [splitOn]
  | cons c t =>
    unfold splitOn
    split
    · simp
    · split <;> simp

theorem joinWith_splitOn (sep : Char) (t : Text) : joinWith sep (splitOn sep t) = t := by
  induction t with
  | nil => rfl
  | cons c t ih =>
    unfold splitOn
    split
    · rename_i h
      subst h
      cases hs : splitOn c t with
      | nil => exact absurd hs (splitOn_ne_nil c t)
      | cons part parts =>
        rw [hs] at ih
        simp [joinWith, ih]
    · cases hs : splitOn sep t with
      | nil => exact absurd hs (splitOn_ne_nil sep t)
      | cons part parts =>
        rw [hs] at ih
        cases parts <;> simp_all [joinWith]

/-- What follows `front` at the start of the text. -/
def stripFront? : (front : Text) → Text → Option Text
  | [], t => some t
  | _ :: _, [] => none
  | c :: front, d :: t => if c = d then stripFront? front t else none

theorem stripFront?_eq_some_iff {front t rest : Text} :
    stripFront? front t = some rest ↔ t = front ++ rest := by
  induction front generalizing t with
  | nil => simp [stripFront?]
  | cons c front ih =>
    cases t with
    | nil => simp [stripFront?]
    | cons d t =>
      by_cases h : c = d
      · simp [stripFront?, h, ih]
      · simp [stripFront?, h, Ne.symm h]

/-- The part before the first place where `mark` stands, the whole text if it stands nowhere. -/
def before (mark : Text) : Text → Text
  | [] => []
  | c :: t => if (stripFront? mark (c :: t)).isSome then [] else c :: before mark t

end Text

end RouteScript
