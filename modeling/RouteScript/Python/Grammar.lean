import RouteScript.Python.Rule

/-!
# The grammar of Python

The rules of Python 3, with the `print` and `exec` statements of Python 2 beside them.
-/

namespace RouteScript.Python

/-- The symbols of the grammar. -/
inductive Symbol where
  -- statements
  | statement | simpleStatement | simpleStatements | assigned | definition
  | elseClause | finallyClause | importList
  -- patterns of a `case`
  | casePattern | closedPattern | patterns
  -- expressions
  | expressions | element | expression | yieldExpression | condition
  | disjunction | conjunction | inversion | comparison
  /-- Arithmetic by binding strength; level 0 binds closest. -/
  | binary (level : Nat)
  | factor | primary | atom | target | targets
  | arguments | clauses | type | string | interpolation
  | parameter | lambdaParameter
deriving DecidableEq, Repr

namespace Grammar

open Rule

/-- A rule of this grammar. -/
abbrev R := Rule Symbol

/-- An identifier. -/
def name : R := leaf .identifier .identifier

/-- A word in a place where no keyword can stand, and so an identifier. -/
def anyName : R := leaf .identifier (.kind .word)

mutual

/-- The expression may be assigned to. -/
def isTarget : Node → Bool
  | .mk .identifier _ _ _ | .mk .attribute _ _ _ | .mk .subscript _ _ _ => true
  | .mk .tuple _ _ children | .mk .list _ _ children | .mk .parenthesizedExpression _ _ children
  | .mk .expressionList _ _ children | .mk .listSplat _ _ children => areTargets children
  | _ => false

/-- All of the expressions may be assigned to. -/
def areTargets : List Node → Bool
  | [] => true
  | n :: ns => isTarget n && areTargets ns

end

/-- The node is an identifier. -/
def isName (n : Node) : Bool := n.kind == .identifier

/-- The node is a name with dots. -/
def isDotted (n : Node) : Bool := n.kind == .dottedName

/-- The node is a name behind one star or two. -/
def isStarred (n : Node) : Bool := n.kind == .listSplatPattern || n.kind == .dictionarySplatPattern

/-- The node is an entry of a dictionary. -/
def isEntry (n : Node) : Bool := n.kind == .pair || n.kind == .dictionarySplat

/-! ### Statements -/

/-- A keyword alone. -/
def bareStatement (kind : Kind) (keyword : String) : R := node kind (lit keyword)

/-- The statements that stand on one line. -/
def simpleStatement : R := alts [
  bareStatement .passStatement "pass",
  bareStatement .breakStatement "break",
  bareStatement .continueStatement "continue",
  node .returnStatement (seqs [lit "return", opt (symbol .expressions)]),
  node .deleteStatement (seqs [lit "del", symbol .expressions]),
  node .raiseStatement (seqs [lit "raise", opt (symbol .expressions),
    opt (seqs [lit "from", symbol .expression])]),
  node .globalStatement (seqs [lit "global", listed anyName]),
  node .nonlocalStatement (seqs [lit "nonlocal", listed anyName]),
  node .assertStatement (seqs [lit "assert", listed (symbol .expression)]),
  node .importStatement (seqs [lit "import", symbol .importList]),
  node .futureImportStatement (seqs [lit "from", lit "__future__", lit "import",
    alts [seqs [lit "(", symbol .importList, lit ")"], symbol .importList]]),
  node .importFromStatement (seqs [lit "from",
    field .moduleName (alts [
      node .relativeImport (seqs [node .importPrefix (some1 (oneOf [".", "..."])),
        opt (node .dottedName (seqs [name, many (seqs [lit ".", anyName])]))]),
      node .dottedName (seqs [anyName, many (seqs [lit ".", anyName])])]),
    lit "import",
    alts [node .wildcardImport (lit "*"), seqs [lit "(", symbol .importList, lit ")"],
      symbol .importList]]),
  node .typeAliasStatement (seqs [token (.leading "type".toList), symbol .type, lit "=",
    symbol .type]),
  node .printStatement (seqs [token (.verb "print".toList), listedEnd (symbol .expression)]),
  node .execStatement (seqs [token (.verb "exec".toList), alts [symbol .string, name],
    opt (seqs [lit "in", listed (symbol .expression)])]),
  node .expressionStatement (alts [symbol .yieldExpression, symbol .assigned])]

/-- Statements on one line and the end of the line. -/
def simpleStatements : R := seqs [
  symbol .simpleStatement, many (seqs [lit ";", symbol .simpleStatement]), opt (lit ";"),
  token (.kind .newline)]

/-- The body of a compound statement: nothing, an indented block or statements on its line. -/
def suite : R := alts [
  node .block (token (.kind .newline)),
  seqs [token (.kind .indent),
    node .block (seqs [many (symbol .statement), token (.kind .dedent)])],
  node .block (symbol .simpleStatements)]

/-- A name with dots and perhaps another name for it. -/
def importedName : R :=
  field .name (chain (node .dottedName (seqs [anyName, many (seqs [lit ".", anyName])]))
    (wrap isDotted .aliasedImport (some .name) (seqs [lit "as", field .newName anyName])))

/-- Parameters in parentheses. -/
def parameters : R :=
  field .parameters (node .parameters
    (seqs [lit "(", opt (listedEnd (symbol .parameter)), lit ")"]))

/-- The parameters of a generic definition. -/
def typeParameters : R :=
  opt (node .typeParameter (seqs [lit "[",
    listedEnd (chain (symbol .type) (around .type none (seqs [lit ":", symbol .type]))), lit "]"]))

/-- The word in front of an asynchronous statement. -/
def optAsync : R := opt (token (.leading "async".toList))

/-- A function or a class. -/
def definition : R := alts [
  node .functionDefinition (seqs [optAsync, lit "def", field .name anyName, typeParameters,
    parameters, opt (seqs [lit "->", field .returnType (symbol .type)]), lit ":",
    field .body (suite)]),
  node .classDefinition (seqs [lit "class", field .name anyName, typeParameters,
    opt (field .superclasses (symbol .arguments)), lit ":", field .body (suite)])]

/-- The handlers of a `try` statement. -/
def exceptClause : R := node .exceptClause (seqs [lit "except", opt (lit "*"),
  opt (seqs [symbol .expression, opt (seqs [lit ",", symbol .expression])]), lit ":",
  suite])

/-- The cases of a `match` statement. -/
def caseClause : R := node .caseClause (seqs [lit "case", listedEnd (symbol .casePattern),
  opt (node .ifClause (seqs [lit "if", symbol .expression])), lit ":", suite])

/-- The statements with bodies. -/
def compoundStatement : R := alts [
  node .ifStatement (seqs [lit "if", symbol .expression, lit ":", suite,
    many (node .elifClause (seqs [lit "elif", symbol .expression, lit ":", suite])),
    opt (symbol .elseClause)]),
  node .forStatement (seqs [optAsync, lit "for", field .left (symbol .targets), lit "in",
    field .right (symbol .expressions), lit ":", field .body (suite),
    opt (symbol .elseClause)]),
  node .whileStatement (seqs [lit "while", symbol .expression, lit ":", suite,
    opt (symbol .elseClause)]),
  node .tryStatement (seqs [lit "try", lit ":", suite,
    alts [seqs [some1 exceptClause, opt (symbol .elseClause), opt (symbol .finallyClause)],
      symbol .finallyClause]]),
  node .withStatement (seqs [optAsync, lit "with",
    node .withClause (listedEnd (node .withItem (field .value (symbol .expression)))), lit ":",
    suite]),
  node .decoratedDefinition (seqs [
    some1 (node .decorator (seqs [lit "@", symbol .expression, token (.kind .newline)])),
    field .definition (symbol .definition)]),
  symbol .definition,
  node .matchStatement (seqs [token (.leading "match".toList), listedEnd (symbol .element),
    lit ":",
    alts [node .block (token (.kind .newline)),
      seqs [token (.kind .indent), node .block (seqs [many caseClause, token (.kind .dedent)])]]])]

/-- Expressions, or a target and what is assigned to it. -/
def assigned : R :=
  let right : R := field .right (alts [symbol .yieldExpression, symbol .assigned])
  chain (symbol .expressions) (alts [
    wrap isTarget .assignment (some .left) (seqs [lit "=", right]),
    wrap isTarget .assignment (some .left) (seqs [lit ":", field .type (symbol .type),
      opt (seqs [lit "=", right])]),
    wrap isTarget .augmentedAssignment (some .left) (seqs [
      oneOf ["+=", "-=", "*=", "/=", "@=", "//=", "%=", "**=", ">>=", "<<=", "&=", "^=", "|="],
      right])])

/-! ### Patterns -/

/-- A number, perhaps negative or complex. -/
def numberPattern : R :=
  let number : R := alts [leaf .integer (.kind .integer), leaf .float (.kind .float)]
  seqs [opt (lit "-"), number, opt (seqs [oneOf ["+", "-"], number])]

/-- A string literal, or several that stand one behind the other. -/
def strings : R :=
  chain (symbol .string) (around .concatenatedString none (some1 (symbol .string)))

/-- A name with dots. -/
def dottedPattern : R := node .dottedName (seqs [name, many (seqs [lit ".", anyName])])

/-- A pattern without alternatives. -/
def closedPattern : R := alts [
  numberPattern,
  strings,
  leaf .none (.text "None".toList),
  leaf .true (.text "True".toList),
  leaf .false (.text "False".toList),
  node .splatPattern (seqs [oneOf ["*", "**"], name]),
  node .tuple (seqs [lit "(", opt (listedEnd (symbol .casePattern)), lit ")"]),
  node .list (seqs [lit "[", opt (listedEnd (symbol .casePattern)), lit "]"]),
  node .dictPattern (seqs [lit "\x7b", opt (listedEnd (alts [
    seqs [symbol .patterns, lit ":", symbol .casePattern],
    node .splatPattern (seqs [oneOf ["*", "**"], name])])), lit "\x7d"]),
  chain dottedPattern (around .classPattern none (seqs [lit "(",
    opt (listedEnd (symbol .casePattern)), lit ")"]))]

/-- Alternatives. -/
def patterns : R := chain (symbol .closedPattern)
  (around .unionPattern none (seqs [lit "|", symbol .closedPattern]))

/-- Alternatives for a keyword or for what is matched, perhaps with a name for what matches. -/
def casePattern : R := node .casePattern
  (chain (alts [node .keywordPattern (seqs [name, lit "=", symbol .patterns]), symbol .patterns])
    (around .asPattern none (seqs [lit "as", name])))

/-! ### Expressions -/

/-- A name or an expression in a list of expressions, perhaps unpacked. -/
def element : R := alts [node .listSplat (seqs [lit "*", symbol (.binary 6)]), symbol .expression]

/-- An expression. -/
def expression : R := alts [
  node .lambda (seqs [lit "lambda",
    opt (field .parameters (node .lambdaParameters (listedEnd (symbol .lambdaParameter)))),
    lit ":", field .body (symbol .expression)]),
  chain (symbol .disjunction) (alts [
    around .conditionalExpression none (seqs [lit "if", symbol .disjunction, lit "else",
      symbol .expression]),
    wrap isName .namedExpression (some .name) (seqs [lit ":=", symbol .expression]),
    around .asPattern none (seqs [lit "as", symbol .expression])])]

/-- The condition of a comprehension, which no conditional expression can be. -/
def condition : R := chain (symbol .disjunction)
  (wrap isName .namedExpression (some .name) (seqs [lit ":=", symbol .expression]))

/-- Operators that compare. -/
def comparators : R := alts [oneOf ["<", ">", "==", ">=", "<=", "!=", "<>", "in"],
  seqs [lit "not", lit "in"], seqs [lit "is", lit "not"], lit "is"]

/-- The binary operators by binding strength, the closest first. -/
def levels : List (List String) :=
  [["*", "/", "//", "%", "@"], ["+", "-"], ["<<", ">>"], ["&"], ["^"], ["|"]]

/-- Operands joined by the operators of a level. -/
def binary : Nat → R
  | 0 => symbol .factor
  | level + 1 => chain (symbol (.binary level)) (around .binaryOperator none
      (seqs [oneOf (levels.getD level []), symbol (.binary level)]))

/-- A subscript or the bounds of a slice. -/
def subscript : R :=
  let bounds : R := seqs [lit ":", opt (symbol .expression),
    opt (seqs [lit ":", opt (symbol .expression)])]
  alts [node .slice bounds, chain (symbol .element) (around .slice none bounds)]

/-- An atom with attributes, calls and subscripts behind it. -/
def primary : R := chain (symbol .atom) (alts [
  around .attribute (some .object) (seqs [lit ".", field .attribute anyName]),
  around .call (some .function) (field .arguments (symbol .arguments)),
  around .subscript (some .value) (seqs [lit "[", listedEnd subscript, lit "]"])])

/-- An argument of a call. -/
def argument : R := alts [
  node .keywordArgument (seqs [field .name anyName, lit "=", field .value (symbol .expression)]),
  node .listSplat (seqs [lit "*", symbol .expression]),
  node .dictionarySplat (seqs [lit "**", symbol .expression]),
  symbol .expression]

/-- The arguments of a call, or the one generator it is given. -/
def arguments : R := alts [
  node .argumentList (seqs [lit "(", lit ")"]),
  fork (seqs [lit "(", argument]) (alts [
    around .generatorExpression none (seqs [symbol .clauses, lit ")"]),
    around .argumentList none
      (seqs [commas argument, lit ")"])])]

/-- An expression or tuple in parentheses, or a generator. -/
def parenthesized : R := alts [
  node .tuple (seqs [lit "(", lit ")"]),
  fork (seqs [lit "(", alts [symbol .yieldExpression, symbol .element]]) (alts [
    around .parenthesizedExpression none (lit ")"),
    around .generatorExpression none (seqs [symbol .clauses, lit ")"]),
    around .tuple none (seqs [lit ",", opt (listedEnd (symbol .element)), lit ")"])])]

/-- A list or a list comprehension. -/
def bracketed : R := alts [
  node .list (seqs [lit "[", lit "]"]),
  fork (seqs [lit "[", alts [symbol .yieldExpression, symbol .element]]) (alts [
    around .listComprehension none (seqs [symbol .clauses, lit "]"]),
    around .list none
      (seqs [commas (symbol .element), lit "]"])])]

/-- A dictionary, a set or a comprehension of either. -/
def braced : R :=
  let entry : R := alts [node .dictionarySplat (seqs [lit "**", symbol .expression]),
    chain (symbol .element) (around .pair none (seqs [lit ":", symbol .expression]))]
  let rest (test : Node → Bool) : R :=
    seqs [commas (check test entry), lit "\x7d"]
  alts [
    node .dictionary (seqs [lit "\x7b", lit "\x7d"]),
    fork (seqs [lit "\x7b", entry]) (alts [
      wrap isEntry .dictionaryComprehension none (seqs [symbol .clauses, lit "\x7d"]),
      around .setComprehension none (seqs [symbol .clauses, lit "\x7d"]),
      wrap isEntry .dictionary none (rest isEntry),
      wrap (fun n => !isEntry n) .set none (rest fun n => !isEntry n)])]

/-- The clauses of a comprehension. -/
def clauses : R :=
  let loop : R := node .forInClause (seqs [optAsync, lit "for", field .left (symbol .targets),
    lit "in", field .right (listedEnd (symbol .condition))])
  seqs [loop, many (alts [loop, node .ifClause (seqs [lit "if", symbol .condition])])]

/-- A string literal. -/
def string : R := node .string (seqs [leaf .stringStart (.kind .stringStart),
  many (alts [leaf .stringContent (.kind .stringContent),
    node .interpolation (symbol .interpolation)]),
  leaf .stringEnd (.kind .stringEnd)])

/-- An interpolated expression with its conversion and format. -/
def interpolation : R := seqs [lit "\x7b", alts [symbol .yieldExpression, symbol .expressions],
  opt (lit "="), opt (leaf .typeConversion (.kind .conversion)),
  opt (node .formatSpecifier (seqs [lit ":",
    many (alts [token (.kind .formatText), node .formatExpression (symbol .interpolation)])])),
  lit "\x7d"]

/-- The operands of the closest binding operators. -/
def atom : R := alts [
  name,
  strings,
  leaf .integer (.kind .integer),
  leaf .float (.kind .float),
  parenthesized, bracketed, braced,
  leaf .none (.text "None".toList),
  leaf .true (.text "True".toList),
  leaf .false (.text "False".toList),
  leaf .ellipsis (.text "...".toList)]

/-! ### Parameters -/

/-- The forms of a parameter in front of a name. -/
def starred : List R := [
  node .dictionarySplatPattern (seqs [lit "**", anyName]),
  node .listSplatPattern (seqs [lit "*", anyName])]

/-- A parameter of a function. -/
def parameter : R :=
  let typed (test : Node → Bool) : R :=
    wrap test .typedParameter none (seqs [lit ":", field .type (symbol .type)])
  alts [
    leaf .positionalSeparator (.text "/".toList),
    chain (alts starred) (typed isStarred),
    leaf .keywordSeparator (.text "*".toList),
    chain anyName (alts [
      wrap isName .typedDefaultParameter (some .name) (seqs [lit ":", field .type (symbol .type),
        lit "=", field .value (symbol .expression)]),
      typed isName,
      wrap isName .defaultParameter (some .name)
        (seqs [lit "=", field .value (symbol .expression)])])]

/-- A parameter of a lambda expression. -/
def lambdaParameter : R := alts [
  leaf .positionalSeparator (.text "/".toList),
  alts starred,
  leaf .keywordSeparator (.text "*".toList),
  chain name (wrap isName .defaultParameter (some .name)
    (seqs [lit "=", field .value (symbol .expression)]))]

/-! ### The rules by symbol -/

/-- The rule of each symbol. -/
def rule : Symbol → R
  | .statement => alt compoundStatement (symbol .simpleStatements)
  | .simpleStatement => simpleStatement
  | .simpleStatements => simpleStatements
  | .assigned => assigned
  | .definition => definition
  | .elseClause => node .elseClause (seqs [lit "else", lit ":", suite])
  | .finallyClause => node .finallyClause (seqs [lit "finally", lit ":", suite])
  | .importList => listedEnd importedName
  | .casePattern => casePattern
  | .closedPattern => closedPattern
  | .patterns => patterns
  | .expressions => commaList .expressionList (symbol .element)
  | .element => element
  | .expression => expression
  | .yieldExpression => node .yield (seqs [lit "yield",
      alts [seqs [lit "from", symbol .expression], opt (symbol .expressions)]])
  | .condition => condition
  | .disjunction => chain (symbol .conjunction)
      (around .booleanOperator none (seqs [lit "or", symbol .conjunction]))
  | .conjunction => chain (symbol .inversion)
      (around .booleanOperator none (seqs [lit "and", symbol .inversion]))
  | .inversion => alt (node .notOperator (seqs [lit "not", symbol .inversion]))
      (symbol .comparison)
  | .comparison => chain (symbol (.binary 6)) (around .comparisonOperator none
      (seqs [comparators, symbol (.binary 6)]))
  | .binary level => binary level
  | .factor => alt (node .unaryOperator (seqs [oneOf ["+", "-", "~"], symbol .factor]))
      (chain (alt (node .await (seqs [token (.leading "await".toList), symbol .primary]))
          (symbol .primary))
        (around .binaryOperator none (seqs [lit "**", symbol .factor])))
  | .primary => primary
  | .atom => atom
  | .target => alt (node .listSplatPattern (seqs [lit "*", symbol .primary]))
      (check isTarget (symbol .primary))
  | .targets => commaList .patternList (symbol .target)
  | .arguments => arguments
  | .clauses => clauses
  | .type => node .type (alt (seqs [oneOf ["*", "**"], symbol .expression])
      (symbol .expression))
  | .string => string
  | .interpolation => interpolation
  | .parameter => parameter
  | .lambdaParameter => lambdaParameter

end Grammar

end RouteScript.Python
