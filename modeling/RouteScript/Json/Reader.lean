import RouteScript.Json.Token

/-!
# Reading JSON

The steps that a reader of JSON texts takes between tokens, each with the fault it finds, and two
readers made of them.

* `parse`: the value of a text.
* `skim`: what follows a value that nobody wants to know.
-/

namespace RouteScript.Json

namespace Stream

/-- The fault of a stream that goes on with the wrong token, or with none. -/
def unexpected (s : Stream) (wrong atEnd : Cause) : Fault :=
  match s with
  | stop .done offset => ⟨atEnd, offset⟩
  | s => ⟨wrong, s.start + 1⟩

/-- The fault of a stream that does not go on with a value. -/
def noValue (s : Stream) : Fault :=
  match s with
  | stop (.string fault) _ | stop (.broken fault) _ => fault
  | s => s.unexpected .noValue .endInValue

/-- Whether a list goes on with an item, and the stream at that item or behind the list. -/
def nextItem (isFirst : Bool) : Stream → Except Fault (Bool × Stream)
  | next ⟨.closeList, _⟩ rest => .ok (false, rest)
  | stop .done offset => .error ⟨.endInList, offset⟩
  | s =>
    if isFirst then .ok (true, s)
    else match s with
      | next ⟨.comma, _⟩ (next ⟨.closeList, span⟩ _) => .error ⟨.trailingComma, span.start + 1⟩
      | next ⟨.comma, _⟩ (stop .done offset) => .error ⟨.endInValue, offset⟩
      | next ⟨.comma, _⟩ rest => .ok (true, rest)
      | s => .error ⟨.noListComma, s.start + 1⟩

/-- A key and the stream behind it. -/
def key : Stream → Except Fault (String × Stream)
  | next ⟨.string written, span⟩ rest =>
    (content (span.start + 1) written).map fun t => (String.ofList t, rest)
  | stop (.string fault) _ => .error fault
  | s => .error (s.unexpected .keyNotString .endInObject)

/-- The next key of an object and the stream behind it, or the stream behind the object. -/
def nextKey (isFirst : Bool) : Stream → Except Fault (Option String × Stream)
  | next ⟨.closeObject, _⟩ rest => .ok (none, rest)
  | stop .done offset => .error ⟨.endInObject, offset⟩
  | s =>
    let found (s : Stream) : Except Fault (Option String × Stream) :=
      s.key.map fun (k, rest) => (some k, rest)
    if isFirst then found s
    else match s with
      | next ⟨.comma, _⟩ (next ⟨.closeObject, span⟩ _) => .error ⟨.trailingComma, span.start + 1⟩
      | next ⟨.comma, _⟩ (stop .done offset) => .error ⟨.endInValue, offset⟩
      | next ⟨.comma, _⟩ rest => found rest
      | s => .error ⟨.noObjectComma, s.start + 1⟩

/-- The stream behind the colon between a key and its value. -/
def colon : Stream → Except Fault Stream
  | next ⟨.colon, _⟩ rest => .ok rest
  | s => .error (s.unexpected .noColon .endInObject)

/-- Nothing follows. -/
def finish : Stream → Except Fault Unit
  | stop .done _ => .ok ()
  | s => .error ⟨.trailingCharacters, s.start + 1⟩

/-- The number of tokens. -/
def size : Stream → Nat
  | next _ rest => rest.size + 1
  | stop _ _ => 0

end Stream

/-- The value that a token is by itself. -/
def Token.scalar? (t : Token) : Except Fault (Option Json) :=
  match t.kind with
  | .null => .ok (some .null)
  | .bool b => .ok (some (.bool b))
  | .number (some n) => .ok (some (.number n))
  | .number none => .error ⟨.numberTooLarge, t.span.stop⟩
  | .string written =>
    (content (t.span.start + 1) written).map fun c => some (.string (String.ofList c))
  | .openList | .closeList | .openObject | .closeObject | .comma | .colon => .ok none

/-! ### Values -/

mutual

/-- A value and the stream behind it.  Every step takes a token. -/
def value : (steps : Nat) → Stream → Except Fault (Json × Stream)
  | 0, s => .error s.noValue
  | steps + 1, s =>
    match s with
    | .next ⟨.openList, _⟩ rest =>
      (items steps true rest).map fun (xs, rest) => (.array xs, rest)
    | .next ⟨.openObject, _⟩ rest =>
      (fields steps true rest).map fun (fs, rest) => (.object fs, rest)
    | .next token rest => do
      match ← token.scalar? with
      | some v => .ok (v, rest)
      | none => .error s.noValue
    | s => .error s.noValue

/-- The items of a list from here on, and the stream behind it. -/
def items : (steps : Nat) → (isFirst : Bool) → Stream → Except Fault (List Json × Stream)
  | 0, _, s => .error s.noValue
  | steps + 1, isFirst, s => do
    let (more, s) ← s.nextItem isFirst
    if more then
      let (v, s) ← value steps s
      let (vs, s) ← items steps false s
      return (v :: vs, s)
    else return ([], s)

/-- The fields of an object from here on, and the stream behind it. -/
def fields : (steps : Nat) → (isFirst : Bool) → Stream →
    Except Fault (List (String × Json) × Stream)
  | 0, _, s => .error s.noValue
  | steps + 1, isFirst, s => do
    match ← s.nextKey isFirst with
    | (none, s) => return ([], s)
    | (some key, s) =>
      let (v, s) ← value steps (← s.colon)
      let (vs, s) ← fields steps false s
      return ((key, v) :: vs, s)

end

/-- The value of a text. -/
def parse (t : Text) : Except Fault Json := do
  let s := Stream.ofText t
  let (v, rest) ← value (2 * s.size + 2) s
  rest.finish
  return v

/-! ### Skimming -/

/-- A list or an object that has been opened. -/
inductive Bracket where
  | list
  | object
deriving DecidableEq, Repr

/-- The fault of a text that ends inside. -/
def Bracket.atEnd : Bracket → Cause
  | list => .endInList
  | object => .endInObject

/-- The fault of a text that lacks a comma inside. -/
def Bracket.noComma : Bracket → Cause
  | list => .noListComma
  | object => .noObjectComma

/-- What comes next while skimming. -/
inductive Expected where
  | value
  /-- The first item or key, or the end of what has just been opened. -/
  | first (b : Bracket)
  /-- A comma, or the end of what is open. -/
  | more (b : Bracket)
  | key
  | colon
deriving DecidableEq, Repr

/-- A place inside a skimmed value: what comes next, and what is open around it. -/
structure Skim where
  expected : Expected
  brackets : List Bracket
deriving DecidableEq, Repr

namespace Skim

/-- Behind a value; none if nothing is open. -/
def behind (brackets : List Bracket) : Option Skim :=
  brackets.head?.map fun b => ⟨.more b, brackets⟩

/-- What follows a token where a value is due. -/
def value (brackets : List Bracket) (t : Token) : Except Fault (Option Skim) :=
  match t.kind with
  | .openList => .ok (some ⟨.first .list, .list :: brackets⟩)
  | .openObject => .ok (some ⟨.first .object, .object :: brackets⟩)
  | .closeList | .closeObject | .comma | .colon => .error ⟨.noValue, t.span.start + 1⟩
  | .null | .bool _ | .number _ | .string _ => .ok (behind brackets)

/-- What follows a token where a key is due. -/
def key (brackets : List Bracket) (t : Token) : Except Fault (Option Skim) :=
  match t.kind with
  | .string _ => .ok (some ⟨.colon, brackets⟩)
  | _ => .error ⟨.keyNotString, t.span.start + 1⟩

/-- The token closes the bracket. -/
def closes (t : Token) : Bracket → Bool
  | .list => t.kind == .closeList
  | .object => t.kind == .closeObject

/-- What follows a token; none if it ends the value. -/
def step (s : Skim) (t : Token) : Except Fault (Option Skim) :=
  match s.expected with
  | .value => value s.brackets t
  | .key => key s.brackets t
  | .colon =>
    if t.kind = .colon then .ok (some ⟨.value, s.brackets⟩) else .error ⟨.noColon, t.span.start + 1⟩
  | .first b =>
    if closes t b then .ok (behind (s.brackets.drop 1))
    else match b with
      | .list => value s.brackets t
      | .object => key s.brackets t
  | .more b =>
    if closes t b then .ok (behind (s.brackets.drop 1))
    else if t.kind = .comma then
      .ok (some ⟨match b with | .list => .value | .object => .key, s.brackets⟩)
    else .error ⟨b.noComma, t.span.start + 1⟩

/-- The fault of a text without further tokens. -/
def fault (s : Skim) (ending : Ending) (offset : Nat) : Fault :=
  let stop := Stream.stop ending offset
  match s.expected with
  | .value => stop.noValue
  | .colon => stop.unexpected .noColon .endInObject
  | .key | .first .object =>
    match ending with
    | .string fault => fault
    | _ => stop.unexpected .keyNotString .endInObject
  | .first .list => if ending = .done then ⟨.endInList, offset⟩ else stop.noValue
  | .more b => stop.unexpected b.noComma b.atEnd

end Skim

/-- The stream behind the value that a skimmer is in. -/
def skimFrom : Skim → Stream → Except Fault Stream
  | s, .stop ending offset => .error (s.fault ending offset)
  | s, .next token rest =>
    match s.step token with
    | .error fault => .error fault
    | .ok none => .ok rest
    | .ok (some s) => skimFrom s rest

/-- The stream behind a value. -/
def skim (s : Stream) : Except Fault Stream := skimFrom ⟨.value, []⟩ s

end RouteScript.Json
