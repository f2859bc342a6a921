import ClassScript.Syntax.Tree

/-!
# Parts of trees

A *node* is what one step of a walk over a program works on: an expression, a
statement, a list of them, the branches of a choice, or a loop that is under way.
`Node.parts` lists the nodes directly below a node that belong to the same scope,
in the order in which they are written.  The body of a block, of a function and
of a method lies in a scope of its own and is no part.
-/

namespace ClassScript

variable {β : Type}

/-- What one step of a walk over a program works on. -/
inductive Node (β : Type) where
  /-- An expression. -/
  | expr (e : Expr β)
  /-- Arguments. -/
  | exprs (es : List (Expr β))
  /-- A statement. -/
  | stmt (s : Stmt β)
  /-- Statements in sequence. -/
  | stmts (body : List (Stmt β))
  /-- What is left of a choice whose condition does not hold. -/
  | elifs (branches : List (Elif β)) (elseBranch : Option (Stmt β))
  /-- A loop from the test of its condition on. -/
  | loop (condition : Expr β) (body : Stmt β)

/-- The parts of an expression. -/
def Expr.parts : Expr β → List (Node β)
  | .literal _ => []
  | .grouping inner => [.expr inner]
  | .unary _ _ operand => [.expr operand]
  | .binary left _ _ right => [.expr left, .expr right]
  | .logical left _ _ right => [.expr left, .expr right]
  | .variable _ => []
  | .assign _ value => [.expr value]
  | .call callee _ arguments => [.expr callee, .exprs arguments]
  | .get object _ => [.expr object]
  | .set object _ value => [.expr object, .expr value]
  | .this _ _ => []
  | .super _ _ _ => []
  | .lambda _ _ _ => []

/-- The parts of a statement. -/
def Stmt.parts : Stmt β → List (Node β)
  | .expression value => [.expr value]
  | .print value => [.expr value]
  | .var _ none => []
  | .var _ (some value) => [.expr value]
  | .block _ => []
  | .ifStmt condition thenBranch elifs elseBranch =>
      [.expr condition, .stmt thenBranch, .elifs elifs elseBranch]
  | .whileStmt condition body => [.loop condition body]
  | .functionDecl _ => []
  | .returnStmt _ none => []
  | .returnStmt _ (some value) => [.expr value]
  | .breakStmt _ => []
  | .classDecl _ _ _ => []

/-- The parts of a node.  A loop is a part of itself, since its next round starts
with the same test. -/
def Node.parts : Node β → List (Node β)
  | .expr e => e.parts
  | .exprs [] => []
  | .exprs (e :: rest) => [.expr e, .exprs rest]
  | .stmt s => s.parts
  | .stmts [] => []
  | .stmts (s :: rest) => [.stmt s, .stmts rest]
  | .elifs [] none => []
  | .elifs [] (some s) => [.stmt s]
  | .elifs (.mk condition body :: rest) elseBranch =>
      [.expr condition, .stmt body, .elifs rest elseBranch]
  | .loop condition body => [.expr condition, .stmt body, .loop condition body]

/-- Expressions and lists of expressions. -/
def Node.IsExpr : Node β → Prop
  | .expr _ => True
  | .exprs _ => True
  | _ => False

/-- The parts of expressions are expressions. -/
theorem Node.isExpr_of_mem_parts {n : Node β} (hn : n.IsExpr) : ∀ n' ∈ n.parts, n'.IsExpr := by
  cases n with
  | expr e =>
    cases e with
    | grouping | unary | assign | get => exact List.forall_mem_singleton.mpr trivial
    | binary | logical | call | set =>
      exact List.forall_mem_cons.mpr ⟨trivial, List.forall_mem_singleton.mpr trivial⟩
    | _ => exact List.forall_mem_nil _
  | exprs es =>
    cases es with
    | nil => exact List.forall_mem_nil _
    | cons =>
      exact List.forall_mem_cons.mpr ⟨trivial, List.forall_mem_singleton.mpr trivial⟩
  | _ => cases hn

/-! ## Declared names -/

/-- The name that a statement declares. -/
def Stmt.declared : Stmt β → Option Name
  | .var name _ => some name
  | .functionDecl f => some f.name
  | .classDecl name _ _ => some name
  | _ => none

/-- The names that statements in sequence declare. -/
def declaredNames (body : List (Stmt β)) : List String :=
  (body.filterMap Stmt.declared).map Name.text

/-- The names that a node declares in its scope. -/
def Node.declared : Node β → List String
  | .stmt s => declaredNames [s]
  | .stmts body => declaredNames body
  | _ => []

theorem declaredNames_cons (s : Stmt β) (rest : List (Stmt β)) :
    declaredNames (s :: rest) = declaredNames [s] ++ declaredNames rest := by
  unfold declaredNames
  cases h : s.declared <;> simp [h]

theorem declaredNames_of_none {s : Stmt β} (h : s.declared = none) : declaredNames [s] = [] := by
  rw [declaredNames, List.filterMap_cons_none h]
  rfl

end ClassScript
