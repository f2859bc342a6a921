import ClassScript.Token.Basic

/-!
# Syntax trees

A program is a list of statements.  Expressions, statements, `elif` branches
and functions contain each other, so they are one mutual definition.

Trees are indexed by a type `β` of *bindings*.  Every place that refers to a
variable, to `this` or to `super` carries one.  A tree fresh from the grammar
has the binding `()` everywhere; a tree whose names are resolved says for each
reference in which scope its name was found.

There is no `for` statement among them.  `Stmt.forLoop` writes one with a
`while` statement and blocks.
-/

namespace ClassScript

/-! ## Names and operators -/

/-- A name with the line it stands on. -/
structure Name where
  /-- The name. -/
  text : String
  /-- Its line. -/
  line : Nat
deriving DecidableEq, Repr

/-- The operators before an operand. -/
inductive UnaryOp where
  | not
  | negate
deriving DecidableEq, Repr

/-- The operators that evaluate both operands. -/
inductive BinaryOp where
  | add | subtract | multiply | divide
  | equal | notEqual
  | greater | greaterEqual | less | lessEqual
deriving DecidableEq, Repr

/-- The operators that may leave out their second operand. -/
inductive LogicalOp where
  | and
  | or
deriving DecidableEq, Repr

/-- The token of an operator. -/
def UnaryOp.token : UnaryOp → TokenKind
  | not => .bang
  | negate => .minus

/-- The operator of a token, if it stands before an operand. -/
def UnaryOp.ofToken? : TokenKind → Option UnaryOp
  | .bang => some not
  | .minus => some negate
  | _ => none

/-- The token of an operator. -/
def BinaryOp.token : BinaryOp → TokenKind
  | add => .plus
  | subtract => .minus
  | multiply => .star
  | divide => .slash
  | equal => .equalEqual
  | notEqual => .bangEqual
  | greater => .greater
  | greaterEqual => .greaterEqual
  | less => .less
  | lessEqual => .lessEqual

/-- The operator of a token, if it stands between two operands that are both
evaluated. -/
def BinaryOp.ofToken? : TokenKind → Option BinaryOp
  | .plus => some add
  | .minus => some subtract
  | .star => some multiply
  | .slash => some divide
  | .equalEqual => some equal
  | .bangEqual => some notEqual
  | .greater => some greater
  | .greaterEqual => some greaterEqual
  | .less => some less
  | .lessEqual => some lessEqual
  | _ => none

/-- The token of an operator. -/
def LogicalOp.token : LogicalOp → TokenKind
  | and => .andKw
  | or => .orKw

theorem UnaryOp.ofToken?_token (op : UnaryOp) : ofToken? op.token = some op := by
  cases op <;> rfl

theorem BinaryOp.ofToken?_token (op : BinaryOp) : ofToken? op.token = some op := by
  cases op <;> rfl

theorem BinaryOp.token_of_ofToken? {k : TokenKind} {op : BinaryOp} (h : ofToken? k = some op) :
    op.token = k := by
  cases k <;> cases h <;> rfl

/-! ## Trees -/

/-- A name in use, with what it is bound to. -/
structure Reference (β : Type) where
  /-- The name. -/
  name : Name
  /-- What the name is bound to. -/
  binding : β
deriving DecidableEq, Repr

mutual

/-- Expressions. -/
inductive Expr (β : Type) where
  /-- A value written down. -/
  | literal (value : Literal)
  /-- An expression in parentheses. -/
  | grouping (inner : Expr β)
  /-- An operator before its operand. -/
  | unary (op : UnaryOp) (line : Nat) (operand : Expr β)
  /-- An operator between its operands. -/
  | binary (left : Expr β) (op : BinaryOp) (line : Nat) (right : Expr β)
  /-- `and` and `or`. -/
  | logical (left : Expr β) (op : LogicalOp) (line : Nat) (right : Expr β)
  /-- The value of a variable. -/
  | variable (target : Reference β)
  /-- An assignment to a variable. -/
  | assign (target : Reference β) (value : Expr β)
  /-- A call, with the line of its closing parenthesis. -/
  | call (callee : Expr β) (line : Nat) (arguments : List (Expr β))
  /-- A property of an object. -/
  | get (object : Expr β) (property : Name)
  /-- An assignment to a field of an object. -/
  | set (object : Expr β) (field : Name) (value : Expr β)
  /-- The receiver of a method. -/
  | this (line : Nat) (binding : β)
  /-- A method of the superclass. -/
  | super (line : Nat) (method : Name) (binding : β)
  /-- A function without a name. -/
  | lambda (line : Nat) (parameters : List Name) (body : List (Stmt β))

/-- Statements. -/
inductive Stmt (β : Type) where
  /-- An expression evaluated for its effect. -/
  | expression (value : Expr β)
  /-- A value to be printed. -/
  | print (value : Expr β)
  /-- The declaration of a variable. -/
  | var (name : Name) (initializer : Option (Expr β))
  /-- Statements in braces. -/
  | block (body : List (Stmt β))
  /-- A choice, with its `elif` branches in order. -/
  | ifStmt (condition : Expr β) (thenBranch : Stmt β) (elifs : List (Elif β))
      (elseBranch : Option (Stmt β))
  /-- A loop. -/
  | whileStmt (condition : Expr β) (body : Stmt β)
  /-- The declaration of a function. -/
  | functionDecl (declaration : Function β)
  /-- The end of a function, with a value or without one. -/
  | returnStmt (line : Nat) (value : Option (Expr β))
  /-- The end of a loop. -/
  | breakStmt (line : Nat)
  /-- The declaration of a class, with the methods in order. -/
  | classDecl (name : Name) (superclass : Option (Reference β)) (methods : List (Function β))

/-- A branch of a choice that is taken if no earlier one is. -/
inductive Elif (β : Type) where
  | mk (condition : Expr β) (body : Stmt β)

/-- A function or method with its name. -/
inductive Function (β : Type) where
  | mk (name : Name) (parameters : List Name) (body : List (Stmt β))

end

/-- The name of a function. -/
def Function.name {β : Type} : Function β → Name
  | mk name _ _ => name

/-- The parameters of a function. -/
def Function.parameters {β : Type} : Function β → List Name
  | mk _ parameters _ => parameters

/-- The statements of a function. -/
def Function.body {β : Type} : Function β → List (Stmt β)
  | mk _ _ body => body

/-- A program: its statements in order. -/
abbrev Program (β : Type) := List (Stmt β)

/-- The name of the method that is run on a new instance. -/
def initializerName : String := "init"

/-! ## Loops with clauses -/

/-- The `for` loop.  The increment follows the body in a block of its own, a
missing condition is true, and an initializer puts the loop into a block that
holds the loop's variable. -/
def Stmt.forLoop {β : Type} (initializer : Option (Stmt β)) (condition : Option (Expr β))
    (increment : Option (Expr β)) (body : Stmt β) : Stmt β :=
  let body := match increment with
    | none => body
    | some step => .block [body, .expression step]
  let loop := .whileStmt (condition.getD (.literal (.boolean true))) body
  match initializer with
  | none => loop
  | some start => .block [start, loop]

end ClassScript
