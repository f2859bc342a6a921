import ClassScript.Diagnostic
import ClassScript.Syntax.Tree

/-!
# The grammar

```text
program      → declaration*
declaration  → "class" NAME ( "<" NAME )? "{" function* "}"
             | "fun" function | variable | statement
function     → NAME "(" parameters? ")" block
variable     → "var" NAME ( "=" expression )? ";"
statement    → expression ";" | "print" expression ";" | "break" ";"
             | "return" expression? ";" | "while" "(" expression ")" statement
             | "for" "(" ( variable | expression ";" | ";" ) expression? ";"
               expression? ")" statement
             | "if" "(" expression ")" statement
               ( "elif" "(" expression ")" statement )* ( "else" statement )?
             | block
block        → "{" declaration* "}"
expression   → ( call "." )? NAME "=" expression | or
or           → and ( "or" and )*
and          → equality ( "and" equality )*
equality     → comparison ( ( "!=" | "==" ) comparison )*
comparison   → term ( ( ">" | ">=" | "<" | "<=" ) term )*
term         → factor ( ( "-" | "+" ) factor )*
factor       → unary ( ( "/" | "*" ) unary )*
unary        → ( "!" | "-" )* call
call         → primary ( "(" arguments? ")" | "." NAME )*
parameters   → NAME ( "," NAME )*
arguments    → expression ( "," expression )*
primary      → NUMBER | STRING | "true" | "false" | "nil" | "this"
             | "super" "." NAME | "(" expression ")" | NAME
             | "fun" "(" parameters? ")" block
```

A rule consumes tokens from the front of the list.  When it cannot go on it
reports what it expected at the next token and gives up.  A declaration that is
given up is dropped: the tokens up to the next statement boundary are skipped
(`recover`) and reading goes on there, so one mistake is reported once.  Two
mistakes are reported without giving up: an assignment to something that
cannot be assigned to, and too long a list of parameters or arguments.

Rules that contain each other do so only behind a token.  `Rules` holds the
rules that others need behind a token, and `Rules.ofDepth` ties the knot with a
depth.  A depth above the number of tokens is never used up.  It also bounds
the loops inside a rule, since each round of a loop consumes a token.
-/

namespace ClassScript

/-! ## Reading from a list of tokens -/

/-- A mistake in a list of tokens. -/
structure Mistake where
  /-- The number of tokens from the one to blame on, or 0 if the end of the list
  is to blame. -/
  left : Nat
  /-- What is wrong. -/
  error : SyntaxError
deriving DecidableEq, Repr

/-- The diagnostic of a mistake in a list of tokens that ends on the given
line. -/
def Mistake.diagnostic (tokens : List Token) (endLine : Nat) (m : Mistake) : Diagnostic :=
  match tokens[tokens.length - m.left]? with
  | none => ⟨endLine, .endOfText, .grammar m.error⟩
  | some t => ⟨t.line, .text t.text, .grammar m.error⟩

/-- What a rule reads from and writes to. -/
structure ParseState where
  /-- The tokens that are left. -/
  rest : List Token
  /-- The mistakes so far, in order. -/
  mistakes : List Mistake
deriving DecidableEq, Repr

/-- A rule: it yields a result or gives up, and in either case leaves a
state. -/
abbrev Parser := EStateM Unit ParseState

namespace Parser

/-- Reports a mistake at the token from which on that many are left. -/
def reportAt (left : Nat) (error : SyntaxError) : Parser Unit :=
  modify fun s => { s with mistakes := s.mistakes ++ [⟨left, error⟩] }

/-- Reports a mistake at the next token. -/
def report (error : SyntaxError) : Parser Unit := do
  reportAt (← get).rest.length error

/-- Reports what is missing at the next token and gives up. -/
def giveUp {α : Type} (what : Expectation) : Parser α := do
  report (.expected what)
  throw ()

/-- The kind of the next token. -/
def peek : Parser (Option TokenKind) := fun s => .ok (s.rest.head?.map Token.kind) s

/-- Whether the next token has the given kind. -/
def nextIs (kind : TokenKind) : Parser Bool := return (← peek) = some kind

/-- Takes the next token if `select` has a value for it. -/
def take? {α : Type} (select : Token → Option α) : Parser (Option α) := fun s =>
  match s.rest with
  | [] => .ok none s
  | t :: rest =>
    match select t with
    | none => .ok none s
    | some a => .ok (some a) { s with rest }

/-- Takes the next token if it has the given kind. -/
def accept (kind : TokenKind) : Parser (Option Token) :=
  take? fun t => if t.kind = kind then some t else none

/-- Takes the next token, which must have the given kind. -/
def expect (kind : TokenKind) (what : Expectation) : Parser Token := do
  match ← accept kind with
  | some t => return t
  | none => giveUp what

/-- Takes the next token, which must be a name. -/
def expectName (what : Expectation) : Parser Name := do
  let t ← expect .identifier what
  return ⟨t.text, t.line⟩

/-! ## Lists -/

/-- The items of a list with commas between them.  Every item past the longest
allowed length is reported and kept.  `count` items came before. -/
def separated {α : Type} (tooMany : SyntaxError) (item : Parser α) :
    (bound count : Nat) → Parser (List α)
  | 0, _ => return []
  | bound + 1, count => do
    if maxArguments ≤ count then report tooMany
    let first ← item
    match ← accept .comma with
    | none => return [first]
    | some _ => return first :: (← separated tooMany item bound (count + 1))

/-- A list of at most `bound` items up to a closing parenthesis, with the line
of the parenthesis. -/
def parenthesized {α : Type} (tooMany : SyntaxError) (ending : Expectation) (item : Parser α)
    (bound : Nat) : Parser (List α × Nat) := do
  let items ← if ← nextIs .rightParen then pure [] else separated tooMany item bound 0
  let paren ← expect .rightParen ending
  return (items, paren.line)

/-- The names of at most `bound` parameters, behind the opening parenthesis. -/
def parameters (bound : Nat) : Parser (List Name) := do
  let (names, _) ←
    parenthesized .tooManyParameters .parametersEnd (expectName .parameterName) bound
  return names

/-! ## Expressions -/

/-- The rules that other rules use behind a token. -/
structure Rules where
  /-- A number no smaller than that of the tokens that are left. -/
  bound : Nat
  /-- An expression. -/
  expression : Parser (Expr Unit)
  /-- A statement that is no declaration. -/
  statement : Parser (Stmt Unit)
  /-- A declaration or statement, if it is not dropped. -/
  declaration : Parser (Option (Stmt Unit))

/-- Statements up to a closing brace, behind the opening one. -/
def block (rules : Rules) : Parser (List (Stmt Unit)) := do
  let body ← statements rules.bound
  let _ ← expect .rightBrace .blockEnd
  return body
where
  /-- The statements that are kept, at most `bound` of them. -/
  statements : Nat → Parser (List (Stmt Unit))
    | 0 => return []
    | bound + 1 => do
      match ← peek with
      | none | some .rightBrace => return []
      | some _ =>
        let first ← rules.declaration
        return first.toList ++ (← statements bound)

/-- The token that an expression without operators starts with. -/
def primaryToken? (t : Token) : Option Token :=
  match t.kind with
  | .falseKw | .trueKw | .nilKw | .number | .string | .thisKw | .superKw | .identifier
  | .funKw | .leftParen => some t
  | _ => none

/-- An expression that is no operator, call or property. -/
def primary (rules : Rules) : Parser (Expr Unit) := do
  match ← take? primaryToken? with
  | none => giveUp .expression
  | some t =>
    match t.kind with
    | .falseKw => return .literal (.boolean false)
    | .trueKw => return .literal (.boolean true)
    | .nilKw => return .literal .nil
    | .number | .string => return .literal (t.literal.getD .nil)
    | .thisKw => return .this t.line ()
    | .superKw =>
      let _ ← expect .dot .superDot
      return .super t.line (← expectName .superMethodName) ()
    | .funKw =>
      let _ ← expect .leftParen .lambdaParameters
      let names ← parameters rules.bound
      let _ ← expect .leftBrace (.functionBody .function)
      return .lambda t.line names (← block rules)
    | .leftParen =>
      let inner ← rules.expression
      let _ ← expect .rightParen .groupingEnd
      return .grouping inner
    | _ => return .variable ⟨⟨t.text, t.line⟩, ()⟩

/-- The calls and properties that follow an expression, at most `bound` of
them. -/
def callSuffixes (rules : Rules) : (bound : Nat) → Expr Unit → Parser (Expr Unit)
  | 0, e => return e
  | bound + 1, e => do
    match ← peek with
    | some .leftParen =>
      let _ ← accept .leftParen
      let (arguments, line) ←
        parenthesized .tooManyArguments .argumentsEnd rules.expression rules.bound
      callSuffixes rules bound (.call e line arguments)
    | some .dot =>
      let _ ← accept .dot
      callSuffixes rules bound (.get e (← expectName .propertyName))
    | _ => return e

/-- An expression with the calls and properties that follow it. -/
def call (rules : Rules) : Parser (Expr Unit) := do
  let e ← primary rules
  callSuffixes rules rules.bound e

/-- An operand behind any number of unary operators. -/
def unary (rules : Rules) : Parser (Expr Unit) :=
  operators rules.bound
where
  /-- At most `bound` operators and their operand. -/
  operators : Nat → Parser (Expr Unit)
    | 0 => call rules
    | bound + 1 => do
      match ← take? fun t => (UnaryOp.ofToken? t.kind).map fun op => (op, t.line) with
      | none => call rules
      | some (op, line) => return .unary op line (← operators bound)

/-- Operands with at most `bound` operators between them.  `operator?` says of a
token how it joins the operands on its sides; operators are joined from the
left. -/
def leftAssociative (operator? : Token → Option (Expr Unit → Expr Unit → Expr Unit))
    (operand : Parser (Expr Unit)) (bound : Nat) : Parser (Expr Unit) := do
  further bound (← operand)
where
  /-- The operators and operands behind the first operand. -/
  further : Nat → Expr Unit → Parser (Expr Unit)
    | 0, left => return left
    | bound + 1, left => do
      match ← take? operator? with
      | none => return left
      | some join => further bound (join left (← operand))

/-- How tightly a binary operator holds its operands, the tightest first. -/
inductive Precedence where
  | factor
  | term
  | comparison
  | equality
deriving DecidableEq, Repr

/-- The precedence of a binary operator. -/
def precedence : BinaryOp → Precedence
  | .multiply | .divide => .factor
  | .add | .subtract => .term
  | .greater | .greaterEqual | .less | .lessEqual => .comparison
  | .equal | .notEqual => .equality

/-- How a token joins its operands, if it is a binary operator of the given
precedence. -/
def binaryAt (level : Precedence) (t : Token) : Option (Expr Unit → Expr Unit → Expr Unit) :=
  match BinaryOp.ofToken? t.kind with
  | none => none
  | some op => if precedence op = level then some fun a b => .binary a op t.line b else none

/-- How a token joins its operands, if it is the given logical operator. -/
def logicalAt (op : LogicalOp) (t : Token) : Option (Expr Unit → Expr Unit → Expr Unit) :=
  if t.kind = op.token then some fun a b => .logical a op t.line b else none

/-- Factors with `/` and `*` between them. -/
def factor (rules : Rules) : Parser (Expr Unit) :=
  leftAssociative (binaryAt .factor) (unary rules) rules.bound

/-- Terms with `-` and `+` between them. -/
def term (rules : Rules) : Parser (Expr Unit) :=
  leftAssociative (binaryAt .term) (factor rules) rules.bound

/-- Terms with orderings between them. -/
def comparison (rules : Rules) : Parser (Expr Unit) :=
  leftAssociative (binaryAt .comparison) (term rules) rules.bound

/-- Comparisons with equalities between them. -/
def equality (rules : Rules) : Parser (Expr Unit) :=
  leftAssociative (binaryAt .equality) (comparison rules) rules.bound

/-- Equalities with `and` between them. -/
def conjunction (rules : Rules) : Parser (Expr Unit) :=
  leftAssociative (logicalAt .and) (equality rules) rules.bound

/-- Conjunctions with `or` between them. -/
def disjunction (rules : Rules) : Parser (Expr Unit) :=
  leftAssociative (logicalAt .or) (conjunction rules) rules.bound

/-- The assignment of a value to what stands left of the equals sign, if that
can be assigned to. -/
def assignment? (target value : Expr Unit) : Option (Expr Unit) :=
  match target with
  | .variable name => some (.assign name value)
  | .get object field => some (.set object field value)
  | _ => none

/-- An assignment, or an expression without one. -/
def assignment (rules : Rules) : Parser (Expr Unit) := do
  let target ← disjunction rules
  match ← accept .equal with
  | none => return target
  | some _ =>
    let behind := (← get).rest
    let value ← rules.expression
    match assignment? target value with
    | some e => return e
    | none =>
      reportAt (behind.length + 1) .invalidAssignmentTarget
      return target

/-! ## Statements -/

/-- An expression and a semicolon. -/
def expressionStatement (expression : Parser (Expr Unit)) : Parser (Stmt Unit) := do
  let e ← expression
  let _ ← expect .semicolon .expressionEnd
  return .expression e

/-- An expression, unless a token of the given kind comes first. -/
def unlessNext (kind : TokenKind) (expression : Parser (Expr Unit)) :
    Parser (Option (Expr Unit)) := do
  if ← nextIs kind then return none else return some (← expression)

/-- The declaration of a variable, behind `var`. -/
def varDeclaration (rules : Rules) : Parser (Stmt Unit) := do
  let name ← expectName .variableName
  let initializer ← match ← accept .equal with
    | none => pure none
    | some _ => some <$> rules.expression
  let _ ← expect .semicolon .variableEnd
  return .var name initializer

/-- A condition in parentheses. -/
def condition (rules : Rules) (opening closing : Expectation) : Parser (Expr Unit) := do
  let _ ← expect .leftParen opening
  let e ← rules.expression
  let _ ← expect .rightParen closing
  return e

/-- The first clause of a `for` loop with its semicolon, behind the opening
parenthesis. -/
def forInitializer (rules : Rules) : Parser (Option (Stmt Unit)) := do
  match ← peek with
  | some .semicolon =>
    let _ ← accept .semicolon
    return none
  | some .varKw =>
    let _ ← accept .varKw
    return some (← varDeclaration rules)
  | _ => return some (← expressionStatement rules.expression)

/-- A `for` loop, behind `for`. -/
def forStatement (rules : Rules) : Parser (Stmt Unit) := do
  let _ ← expect .leftParen .forClauses
  let initializer ← forInitializer rules
  let condition ← unlessNext .semicolon rules.expression
  let _ ← expect .semicolon .forConditionEnd
  let increment ← unlessNext .rightParen rules.expression
  let _ ← expect .rightParen .forClausesEnd
  let body ← rules.statement
  return .forLoop initializer condition increment body

/-- At most `bound` branches with `elif`. -/
def elifBranches (rules : Rules) : (bound : Nat) → Parser (List (Elif Unit))
  | 0 => return []
  | bound + 1 => do
    match ← accept .elifKw with
    | none => return []
    | some _ =>
      let c ← condition rules .elifCondition .elifConditionEnd
      let body ← rules.statement
      return .mk c body :: (← elifBranches rules bound)

/-- A choice, behind `if`. -/
def ifStatement (rules : Rules) : Parser (Stmt Unit) := do
  let c ← condition rules .ifCondition .ifConditionEnd
  let thenBranch ← rules.statement
  let elifs ← elifBranches rules rules.bound
  let elseBranch ← match ← accept .elseKw with
    | none => pure none
    | some _ => some <$> rules.statement
  return .ifStmt c thenBranch elifs elseBranch

/-- A loop, behind `while`. -/
def whileStatement (rules : Rules) : Parser (Stmt Unit) := do
  let c ← condition rules .whileCondition .whileConditionEnd
  return .whileStmt c (← rules.statement)

/-- A value to be printed, behind `print`. -/
def printStatement (rules : Rules) : Parser (Stmt Unit) := do
  let e ← rules.expression
  let _ ← expect .semicolon .printEnd
  return .print e

/-- The end of a function, behind `return` on the given line. -/
def returnStatement (rules : Rules) (line : Nat) : Parser (Stmt Unit) := do
  let value ← unlessNext .semicolon rules.expression
  let _ ← expect .semicolon .returnEnd
  return .returnStmt line value

/-- The end of a loop, behind `break` on the given line. -/
def breakStatement (line : Nat) : Parser (Stmt Unit) := do
  let _ ← expect .semicolon .breakEnd
  return .breakStmt line

/-- The word a statement starts with, unless it is an expression. -/
def statementWord? (t : Token) : Option Token :=
  match t.kind with
  | .forKw | .ifKw | .printKw | .returnKw | .breakKw | .whileKw | .leftBrace => some t
  | _ => none

/-- A statement that is no declaration. -/
def statement (rules : Rules) : Parser (Stmt Unit) := do
  match ← take? statementWord? with
  | none => expressionStatement (assignment rules)
  | some t =>
    match t.kind with
    | .forKw => forStatement rules
    | .ifKw => ifStatement rules
    | .printKw => printStatement rules
    | .returnKw => returnStatement rules t.line
    | .breakKw => breakStatement t.line
    | .whileKw => whileStatement rules
    | _ => return .block (← block rules)

/-! ## Declarations -/

/-- A function or method from its name on. -/
def function (rules : Rules) (kind : FunctionKind) : Parser (Function Unit) := do
  let name ← expectName (.functionName kind)
  let _ ← expect .leftParen (.functionParameters kind)
  let names ← parameters rules.bound
  let _ ← expect .leftBrace (.functionBody kind)
  return .mk name names (← block rules)

/-- At most `bound` methods. -/
def methods (rules : Rules) : (bound : Nat) → Parser (List (Function Unit))
  | 0 => return []
  | bound + 1 => do
    match ← peek with
    | none | some .rightBrace => return []
    | some _ => return (← function rules .method) :: (← methods rules bound)

/-- The superclass of a class, if it has one. -/
def superclass : Parser (Option (Reference Unit)) := do
  match ← accept .less with
  | none => return none
  | some _ => return some ⟨← expectName .superclassName, ()⟩

/-- A class, behind `class`. -/
def classDeclaration (rules : Rules) : Parser (Stmt Unit) := do
  let name ← expectName .className
  let parent ← superclass
  let _ ← expect .leftBrace .classBodyStart
  let members ← methods rules rules.bound
  let _ ← expect .rightBrace .classBodyEnd
  return .classDecl name parent members

/-- Whether the next tokens start the declaration of a function.  Without a
name behind it, `fun` starts an expression. -/
def nextIsFunction : Parser Bool := fun s =>
  match s.rest with
  | a :: b :: _ => .ok (decide (a.kind = .funKw ∧ b.kind = .identifier)) s
  | _ => .ok false s

/-- A declaration or statement. -/
def declarationBody (rules : Rules) : Parser (Stmt Unit) := do
  if ← nextIsFunction then
    let _ ← accept .funKw
    return .functionDecl (← function rules .function)
  match ← peek with
  | some .classKw =>
    let _ ← accept .classKw
    classDeclaration rules
  | some .varKw =>
    let _ ← accept .varKw
    varDeclaration rules
  | _ => statement rules

/-! ## Recovery -/

/-- The tokens at which reading goes on after a mistake: they start a
declaration or statement. -/
def startsStatement : TokenKind → Bool
  | .classKw | .funKw | .varKw | .forKw | .ifKw | .whileKw | .printKw | .returnKw => true
  | _ => false

/-- What is left behind the next statement boundary, after the given token: a
boundary lies behind a semicolon and before a token that starts a statement. -/
def skipAfter (last : TokenKind) : List Token → List Token
  | [] => []
  | t :: rest =>
    if last = .semicolon ∨ startsStatement t.kind then t :: rest else skipAfter t.kind rest

/-- Skips at least one token and then to the next statement boundary. -/
def recover : List Token → List Token
  | [] => []
  | t :: rest => skipAfter t.kind rest

/-- A declaration or statement.  One that cannot be read is dropped. -/
def declaration (rules : Rules) : Parser (Option (Stmt Unit)) := fun s =>
  match declarationBody rules s with
  | .ok stmt s => .ok (some stmt) s
  | .error _ s => .ok none { s with rest := recover s.rest }

/-! ## Programs -/

/-- The rules, nested in each other up to the given depth.  A rule is nested
only behind a token, so a depth above the number of tokens is enough. -/
def Rules.ofDepth : Nat → Rules
  | 0 =>
    { bound := 0
      expression := throw ()
      statement := throw ()
      declaration := throw () }
  | depth + 1 =>
    { bound := depth + 1
      expression := fun s => Parser.assignment (ofDepth depth) s
      statement := fun s => Parser.statement (ofDepth depth) s
      declaration := fun s => Parser.declaration (ofDepth depth) s }

/-- The statements of a program up to its end, at most `bound` of them. -/
def program (rules : Rules) : (bound : Nat) → Parser (Program Unit)
  | 0 => return []
  | bound + 1 => do
    match ← peek with
    | none => return []
    | some _ =>
      let first ← rules.declaration
      return first.toList ++ (← program rules bound)

end Parser

/-- A program that was read, and the mistakes in it. -/
structure Parse where
  /-- The statements that could be read. -/
  program : Program Unit
  /-- The mistakes, in order. -/
  mistakes : List Mistake

/-- Reads the program that a list of tokens spells. -/
def Parse.ofTokens (tokens : List Token) : Parse :=
  let rules := Parser.Rules.ofDepth (tokens.length + 1)
  match Parser.program rules tokens.length ⟨tokens, []⟩ with
  | .ok program s => ⟨program, s.mistakes⟩
  | .error _ s => ⟨[], s.mistakes⟩

end ClassScript
