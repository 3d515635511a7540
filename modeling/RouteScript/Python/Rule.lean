import RouteScript.Python.Node
import RouteScript.Python.Token

/-!
# Rules of a grammar

A grammar gives a rule for every symbol.  A rule is read from the front of a list of tokens and
yields nodes; of two alternatives the first that can be read counts.

Left recursion is written with `chain`: what was read first, its base, becomes the first child of
the node that a `wrap` builds around it.  `fork` reads what two forms have in common and leaves
the choice between them to what comes behind.

The end of a line is no mark but blank where a statement cannot end; `inside` tells that the rule
being read is followed by one that needs a token.
-/

namespace RouteScript.Python

/-- What a rule may ask of the next token. -/
inductive Expect where
  /-- The word or operator of the given spelling. -/
  | text (spelling : Text)
  /-- A token of the given kind. -/
  | kind (kind : TokenKind)
  /-- A word that is no keyword. -/
  | identifier
  /-- A word of the given spelling that does not end its line. -/
  | leading (spelling : Text)
  /-- A word of the given spelling in front of an operand. -/
  | verb (spelling : Text)

namespace Expect

/-- The token is the word or operator of the given spelling. -/
def spells (spelling : Text) (t : Token) : Bool :=
  (t.kind == .word || t.kind == .operator) && t.text == spelling

/-- The words between operands and behind them. -/
def connectives : List Text :=
  ["and", "or", "in", "is", "not", "if", "else", "as", "for", "from", "import"].map String.toList

/-- An operand starts with the token. -/
def startsOperand (t : Token) : Bool :=
  t.kind == .integer || t.kind == .float || t.kind == .stringStart
    || (t.kind == .word && !connectives.contains t.text)

/-- The tokens start with what is asked for. -/
def admits : Expect → List Token → Bool
  | _, [] => false
  | text spelling, t :: _ => spells spelling t
  | kind k, t :: _ => t.kind == k
  | identifier, t :: _ => t.kind == .word && !keywords.contains (String.ofList t.text)
  | leading spelling, t :: next => spells spelling t && next.head?.any (·.kind != .newline)
  | verb spelling, t :: next => spells spelling t && next.head?.any startsOperand

end Expect

/-- A rule over the symbols `σ`. -/
inductive Rule (σ : Type) where
  | empty
  | fail
  /-- A token that is no node. -/
  | token (e : Expect)
  /-- A token that is a node. -/
  | leaf (kind : Kind) (e : Expect)
  | symbol (s : σ)
  | seq (first next : Rule σ)
  | alt (first other : Rule σ)
  /-- As often as it can be read. -/
  | many (rule : Rule σ)
  /-- As often as it can be read, each time behind a comma, and perhaps one more comma. -/
  | commas (rule : Rule σ)
  | node (kind : Kind) (rule : Rule σ)
  /-- The nodes of a rule in the given role. -/
  | field (role : Field) (rule : Rule σ)
  /-- A rule whose nodes pass a test. -/
  | check (test : Node → Bool) (rule : Rule σ)
  /-- A base and as many steps around it as can be read. -/
  | chain (base steps : Rule σ)
  /-- The steps of a chain around what was read to the left. -/
  | grow (steps : Rule σ)
  /-- What several forms have in common, and the form that `ends` tells. -/
  | fork (common ends : Rule σ)
  /-- A node around what was read to the left, in the given role, if it passes a test. -/
  | wrap (test : Node → Bool) (kind : Kind) (role : Option Field) (rule : Rule σ)

namespace Rule

variable {σ : Type}

/-- The rule can be read without a token.  Every symbol needs one. -/
def nullable : Rule σ → Bool
  | empty | many _ | commas _ | grow _ => true
  | fail | token _ | leaf _ _ | symbol _ => false
  | seq first next => first.nullable && next.nullable
  | alt first other => first.nullable || other.nullable
  | node _ rule | field _ rule | check _ rule | wrap _ _ _ rule => rule.nullable
  | chain base _ => base.nullable
  | fork common ends => common.nullable && ends.nullable

/-- The rule can be read from the end of a line on.  No symbol can. -/
def startsWithNewline : Rule σ → Bool
  | token (.kind .newline) => true
  | seq first next =>
    first.startsWithNewline || (first.nullable && next.startsWithNewline)
  | alt first other => first.startsWithNewline || other.startsWithNewline
  | node _ rule | field _ rule | check _ rule | wrap _ _ _ rule => rule.startsWithNewline
  | chain base _ | fork base _ => base.startsWithNewline
  | _ => false

/-- No statement can end in front of the rule, in a place where `inside` tells the same of what
follows it. -/
def goesOn (rule : Rule σ) (inside : Bool) : Bool :=
  !rule.startsWithNewline && (inside || !rule.nullable)

/-- The tokens that are left and the end of the last one read. -/
structure Input where
  tokens : List Token
  last : Nat

namespace Input

/-- The start of the next token. -/
def start (i : Input) : Nat := (i.tokens.head?.map (·.span.start)).getD i.last

/-- The input behind the next token, if it is as expected. -/
def next? (i : Input) (e : Expect) : Option (Token × Input) :=
  match i.tokens with
  | t :: rest => if e.admits (t :: rest) then some (t, ⟨rest, t.span.stop⟩) else none
  | [] => none

/-- The input without the line ends in front, where they are blank. -/
def joined (i : Input) (inside : Bool) : Input :=
  if inside then ⟨i.tokens.dropWhile (·.kind == .newline), i.last⟩ else i

end Input

/-- What was read to the left of a `wrap`, and where it starts. -/
structure Left where
  nodes : List Node
  start : Nat

/-- The nodes of a rule at the front of the input, and the input behind them.  `fuel` bounds the
depth of the reading. -/
def read (grammar : σ → Rule σ) :
    (fuel : Nat) → Rule σ → (inside : Bool) → Left → Input → Option (List Node × Input)
  | 0, _, _, _, _ => none
  | fuel + 1, rule, inside, left, i =>
    match rule with
    | empty => some ([], i)
    | fail => none
    | token e => (i.next? e).map fun (_, rest) => ([], rest)
    | leaf kind e => (i.next? e).map fun (t, rest) => ([.mk kind none t.span []], rest)
    | symbol s => read grammar fuel (grammar s) inside left i
    | seq first next => do
      let closed := next.goesOn inside
      let (nodes, i) ← read grammar fuel first closed left i
      let (more, i) ← read grammar fuel next inside left (i.joined closed)
      some (nodes ++ more, i)
    | alt first other =>
      match read grammar fuel first inside left i with
      | some result => some result
      | none => read grammar fuel other inside left i
    | many rule =>
      match read grammar fuel rule inside left i with
      | none => some ([], i)
      | some (nodes, i) => do
        let (more, i) ← read grammar fuel (many rule) inside left (i.joined inside)
        some (nodes ++ more, i)
    | commas rule =>
      match i.next? (.text [',']) with
      | none => some ([], i)
      | some (_, rest) =>
        match read grammar fuel rule inside left (rest.joined inside) with
        | none => some ([], rest)
        | some (nodes, i) => do
          let (more, i) ← read grammar fuel (commas rule) inside left (i.joined inside)
          some (nodes ++ more, i)
    | node kind rule => do
      let (nodes, rest) ← read grammar fuel rule inside left i
      some ([.mk kind none ⟨i.start, rest.last⟩ nodes], rest)
    | field role rule => do
      let (nodes, rest) ← read grammar fuel rule inside left i
      some (nodes.map (·.withField role), rest)
    | check test rule => do
      let (nodes, rest) ← read grammar fuel rule inside left i
      if nodes.all test then some (nodes, rest) else none
    | chain base steps => do
      let (nodes, rest) ← read grammar fuel base inside left i
      read grammar fuel (grow steps) inside ⟨nodes, i.start⟩ (rest.joined inside)
    | grow steps =>
      match read grammar fuel steps inside left i with
      | none => some (left.nodes, i)
      | some (nodes, rest) =>
        read grammar fuel (grow steps) inside ⟨nodes, left.start⟩ (rest.joined inside)
    | fork common ends => do
      let (nodes, rest) ← read grammar fuel common true left i
      read grammar fuel ends inside ⟨nodes, i.start⟩ (rest.joined true)
    | wrap test kind role rule =>
      if left.nodes.all test then do
        let (nodes, rest) ← read grammar fuel rule inside left i
        let inner := match role with
          | some role => left.nodes.map (·.withField role)
          | none => left.nodes
        some ([.mk kind none ⟨left.start, rest.last⟩ (inner ++ nodes)], rest)
      else none

/-! ### Shorthands -/

/-- The word or operator spelled so. -/
def lit (spelling : String) : Rule σ := token (.text spelling.toList)

/-- One rule after the other. -/
def seqs : List (Rule σ) → Rule σ
  | [] => empty
  | [rule] => rule
  | rule :: rules => seq rule (seqs rules)

/-- The first rule that can be read. -/
def alts : List (Rule σ) → Rule σ
  | [] => fail
  | [rule] => rule
  | rule :: rules => alt rule (alts rules)

/-- One of the given words or operators. -/
def oneOf (spellings : List String) : Rule σ := alts (spellings.map lit)

/-- The rule or nothing. -/
def opt (rule : Rule σ) : Rule σ := alt rule empty

/-- Once or more. -/
def some1 (rule : Rule σ) : Rule σ := seq rule (many rule)

/-- Once or more, with commas between. -/
def listed (rule : Rule σ) : Rule σ := seq rule (many (seq (lit ",") rule))

/-- Once or more, with commas between and perhaps one behind. -/
def listedEnd (rule : Rule σ) : Rule σ := seq rule (commas rule)

/-- A node around whatever was read to the left. -/
def around (kind : Kind) (role : Option Field) (rule : Rule σ) : Rule σ :=
  wrap (fun _ => true) kind role rule

/-- The rule by itself, or a list of its nodes, which has a comma at least. -/
def commaList (kind : Kind) (rule : Rule σ) : Rule σ :=
  chain rule (wrap (fun n => n.kind != kind) kind none (seq (lit ",") (opt (listedEnd rule))))

end Rule

end RouteScript.Python
