import RouteScript.Text.Basic

/-!
# Syntax trees of Python

A node has a kind, a span and children; a child may have a role in its parent, its field.  Only
what has a name in the grammar is a node: keywords, operators, delimiters and comments are not.

* `descendants` lists a tree in document order, each node before its children.
* `isPlaced` says that the spans of a tree are well placed in a text: they start and end between
  characters, children lie inside their parents, and siblings follow one another.
* `pathTo` is the way from a tree down to its innermost node around a span.
-/

namespace RouteScript.Python

/-- The kind of a node. -/
inductive Kind where
  | module | block | error
  -- definitions
  | functionDefinition | classDefinition | decoratedDefinition | decorator
  | parameters | lambdaParameters | typeParameter
  | defaultParameter | typedParameter | typedDefaultParameter
  | listSplatPattern | dictionarySplatPattern | keywordSeparator | positionalSeparator | type
  -- statements
  | expressionStatement | returnStatement | deleteStatement | raiseStatement | passStatement
  | breakStatement | continueStatement | globalStatement | nonlocalStatement | assertStatement
  | importStatement | importFromStatement | futureImportStatement | typeAliasStatement
  | printStatement | execStatement
  | ifStatement | forStatement | whileStatement | tryStatement | withStatement | matchStatement
  -- parts of statements
  | elifClause | elseClause | exceptClause | finallyClause | withClause | withItem | caseClause
  | casePattern | splatPattern | unionPattern | classPattern | keywordPattern | dictPattern
  | dottedName | aliasedImport | relativeImport | importPrefix | wildcardImport
  | assignment | augmentedAssignment | patternList | expressionList
  -- expressions
  | identifier | integer | float | none | true | false | ellipsis
  | string | stringStart | stringContent | stringEnd | interpolation | typeConversion
  | formatSpecifier | formatExpression | concatenatedString
  | attribute | subscript | slice | call | argumentList | keywordArgument | listSplat
  | dictionarySplat | parenthesizedExpression | tuple | list | set | dictionary | pair
  | generatorExpression | listComprehension | setComprehension | dictionaryComprehension
  | forInClause | ifClause | await | unaryOperator | binaryOperator | comparisonOperator
  | notOperator | booleanOperator | conditionalExpression | namedExpression | asPattern | lambda
  | yield
deriving DecidableEq, Repr

namespace Kind

/-- The node is a whole statement, a definition or the module. -/
def isStatement : Kind → Bool
  | module | functionDefinition | classDefinition | decoratedDefinition
  | expressionStatement | returnStatement | deleteStatement | raiseStatement | passStatement
  | breakStatement | continueStatement | globalStatement | nonlocalStatement | assertStatement
  | importStatement | importFromStatement | futureImportStatement | typeAliasStatement
  | printStatement | execStatement
  | ifStatement | forStatement | whileStatement | tryStatement | withStatement
  | matchStatement => .true
  | _ => .false

end Kind

/-- The role of a child in its parent. -/
inductive Field where
  | name | parameters | body | superclasses | returnType | definition
  | function | arguments | object | attribute | value | left | right | type
  | moduleName | newName
deriving DecidableEq, Repr

/-- A node of a syntax tree. -/
inductive Node where
  | mk (kind : Kind) (field : Option Field) (span : Span) (children : List Node)
deriving Repr

namespace Node

/-- The kind of the node. -/
def kind : Node → Kind
  | mk kind _ _ _ => kind

/-- The role of the node in its parent. -/
def field : Node → Option Field
  | mk _ field _ _ => field

/-- The bytes of the node. -/
def span : Node → Span
  | mk _ _ span _ => span

/-- The children, in document order. -/
def children : Node → List Node
  | mk _ _ _ children => children

/-- The node in the given role, if it has none yet. -/
def withField (f : Field) : Node → Node
  | mk kind none span children => mk kind (some f) span children
  | n => n

/-- The first child in the given role. -/
def child? (n : Node) (f : Field) : Option Node := n.children.find? (·.field == some f)

mutual

/-- The node and all nodes below it, each before its children. -/
def descendants : Node → List Node
  | mk kind field span children => mk kind field span children :: descendantsOf children

/-- The nodes of several trees, one tree after the other. -/
def descendantsOf : List Node → List Node
  | [] => []
  | n :: ns => descendants n ++ descendantsOf ns

end

mutual

/-- The spans of the tree are well placed in the text. -/
def isPlaced (t : Text) : Node → Bool
  | mk _ _ span children =>
    t.isBoundary span.start && t.isBoundary span.stop && inOrder t span.start span.stop children

/-- The trees are well placed and follow one another between two offsets. -/
def inOrder (t : Text) (low high : Nat) : List Node → Bool
  | [] => low ≤ high
  | n :: ns => low ≤ n.span.start && isPlaced t n && inOrder t n.span.stop high ns

end

/-- The child is behind the start of the span and reaches to its end. -/
def reaches (s : Span) (n : Node) : Bool :=
  s.stop ≤ n.span.stop && (s.start < n.span.stop || (s.start == n.span.stop && n.span.size == 0))

mutual

/-- The nodes around a span, the innermost first, in front of the nodes `outer` around the tree. -/
def pathTo (s : Span) (outer : List Node) : Node → List Node
  | mk kind field span children =>
    pathBelow s (mk kind field span children :: outer) children

/-- The way into the first child that reaches far enough, if the span does not start before it. -/
def pathBelow (s : Span) (path : List Node) : List Node → List Node
  | [] => path
  | n :: ns =>
    if reaches s n then if s.start < n.span.start then path else pathTo s path n
    else pathBelow s path ns

end

end Node

end RouteScript.Python
