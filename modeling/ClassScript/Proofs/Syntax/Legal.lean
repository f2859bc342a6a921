import ClassScript.Proofs.Syntax.Parts

/-!
# Legal trees

The grammar keeps declarations out of some places and keywords out of the names
that a program declares.  A tree is *legal* if the branches of its choices and
the bodies of its loops declare nothing, and if no parameter, declared name or
target of an assignment is `this` or `super`.  Every node inside a legal one is
legal.
-/

namespace ClassScript

/-- A name that the program may declare. -/
def Name.Ordinary (name : Name) : Prop := name.text ≠ "this" ∧ name.text ≠ "super"

variable {β : Type}

mutual

/-- Legal expressions. -/
def Expr.Legal : Expr β → Prop
  | .literal _ => True
  | .grouping inner => inner.Legal
  | .unary _ _ operand => operand.Legal
  | .binary left _ _ right => left.Legal ∧ right.Legal
  | .logical left _ _ right => left.Legal ∧ right.Legal
  | .variable target => target.name.Ordinary
  | .assign target value => target.name.Ordinary ∧ value.Legal
  | .call callee _ arguments => callee.Legal ∧ legalExprs arguments
  | .get object _ => object.Legal
  | .set object _ value => object.Legal ∧ value.Legal
  | .this _ _ => True
  | .super _ _ _ => True
  | .lambda _ parameters body => (∀ p ∈ parameters, p.Ordinary) ∧ legalStmts body

/-- Lists of legal expressions. -/
def legalExprs : List (Expr β) → Prop
  | [] => True
  | e :: rest => e.Legal ∧ legalExprs rest

/-- Legal statements. -/
def Stmt.Legal : Stmt β → Prop
  | .expression value => value.Legal
  | .print value => value.Legal
  | .var name none => name.Ordinary
  | .var name (some value) => name.Ordinary ∧ value.Legal
  | .block body => legalStmts body
  | .ifStmt condition thenBranch elifs elseBranch =>
      condition.Legal ∧ (thenBranch.Legal ∧ thenBranch.declared = none) ∧ legalElifs elifs ∧
        legalElse elseBranch
  | .whileStmt condition body => condition.Legal ∧ body.Legal ∧ body.declared = none
  | .functionDecl f => f.Legal
  | .returnStmt _ none => True
  | .returnStmt _ (some value) => value.Legal
  | .breakStmt _ => True
  | .classDecl name _ methods => name.Ordinary ∧ legalFunctions methods

/-- Lists of legal statements. -/
def legalStmts : List (Stmt β) → Prop
  | [] => True
  | s :: rest => s.Legal ∧ legalStmts rest

/-- Legal branches of a choice. -/
def legalElifs : List (Elif β) → Prop
  | [] => True
  | .mk condition body :: rest =>
      (condition.Legal ∧ body.Legal ∧ body.declared = none) ∧ legalElifs rest

/-- Legal last branches of a choice. -/
def legalElse : Option (Stmt β) → Prop
  | none => True
  | some s => s.Legal ∧ s.declared = none

/-- Legal functions. -/
def Function.Legal : Function β → Prop
  | .mk name parameters body =>
      name.Ordinary ∧ (∀ p ∈ parameters, p.Ordinary) ∧ legalStmts body

/-- Lists of legal functions. -/
def legalFunctions : List (Function β) → Prop
  | [] => True
  | f :: rest => f.Legal ∧ legalFunctions rest

end

/-- Legal nodes. -/
def Node.Legal : Node β → Prop
  | .expr e => e.Legal
  | .exprs es => legalExprs es
  | .stmt s => s.Legal
  | .stmts body => legalStmts body
  | .elifs branches elseBranch => legalElifs branches ∧ legalElse elseBranch
  | .loop condition body => condition.Legal ∧ body.Legal ∧ body.declared = none

theorem Expr.Legal.part {e : Expr β} (he : e.Legal) : ∀ n ∈ e.parts, n.Legal := by
  cases e <;> simp_all [Expr.parts, Expr.Legal, Node.Legal]

theorem Stmt.Legal.part {s : Stmt β} (hs : s.Legal) : ∀ n ∈ s.parts, n.Legal := by
  fun_cases Stmt.parts s <;> simp_all [Stmt.Legal, Node.Legal]

/-- The parts of a legal node are legal. -/
theorem Node.Legal.part {n : Node β} (hn : n.Legal) : ∀ n' ∈ n.parts, n'.Legal := by
  fun_cases Node.parts n
  case case1 e => exact Expr.Legal.part hn
  case case4 s => exact Stmt.Legal.part hn
  all_goals simp_all [Node.Legal, legalExprs, legalStmts, legalElifs, legalElse]

/-! ## Declared names -/

theorem Stmt.Legal.ordinary {s : Stmt β} (hs : s.Legal) :
    ∀ x ∈ declaredNames [s], x ≠ "this" ∧ x ≠ "super" := by
  intro x hx
  cases s with
  | var name initializer =>
    obtain rfl := List.mem_singleton.mp hx
    cases initializer with
    | none => exact hs
    | some value => exact hs.1
  | functionDecl f =>
    obtain rfl := List.mem_singleton.mp hx
    cases f with
    | mk name parameters body => exact hs.1
  | classDecl name superclass methods =>
    obtain rfl := List.mem_singleton.mp hx
    exact hs.1
  | _ => cases hx

/-- A legal node declares ordinary names. -/
theorem Node.Legal.ordinary {n : Node β} (hn : n.Legal) :
    ∀ x ∈ n.declared, x ≠ "this" ∧ x ≠ "super" := by
  cases n with
  | stmt s => exact Stmt.Legal.ordinary hn
  | stmts body =>
    induction body with
    | nil => exact nofun
    | cons s rest ih =>
      intro x hx
      rw [declared, declaredNames_cons] at hx
      rcases List.mem_append.mp hx with hx | hx
      · exact Stmt.Legal.ordinary hn.1 x hx
      · exact ih hn.2 x hx
  | _ => exact nofun

end ClassScript
