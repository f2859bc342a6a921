import ClassScript.Syntax.Tree

/-!
# Chains of choices

A choice has any number of `elif` branches.  `Stmt.nest` writes a tree without them: each
further branch becomes a choice of its own, in the last branch of the one before
(`nestChain`).  `elseIfs` does so for tokens, where `elif` becomes `else` and `if` on the same
line.
-/

namespace ClassScript

/-! ## Tokens -/

/-- The token with `else` and `if` in the place of `elif`, on the same line. -/
def Token.elseIf (t : Token) : List Token :=
  if t.kind = .elifKw then [⟨.elseKw, "else", none, t.line⟩, ⟨.ifKw, "if", none, t.line⟩] else [t]

/-- The tokens with `else` and `if` in the place of every `elif`. -/
def elseIfs (tokens : List Token) : List Token := tokens.flatMap Token.elseIf

theorem Token.elseIf_of_kind {t : Token} {kind : TokenKind} (h : t.kind = kind)
    (hk : kind ≠ .elifKw) : t.elseIf = [t] :=
  if_neg (h ▸ hk)

theorem elseIfs_cons (t : Token) (ts : List Token) :
    elseIfs (t :: ts) = t.elseIf ++ elseIfs ts := rfl

/-- Other tokens stay. -/
theorem elseIfs_keep {t : Token} {kind : TokenKind} (h : t.kind = kind) (hk : kind ≠ .elifKw)
    (ts : List Token) : elseIfs (t :: ts) = t :: elseIfs ts := by
  rw [elseIfs_cons, Token.elseIf_of_kind h hk, List.singleton_append]

theorem elseIfs_append (ts us : List Token) :
    elseIfs (ts ++ us) = elseIfs ts ++ elseIfs us :=
  List.flatMap_append

/-! ## Trees -/

section

variable {β : Type}

mutual

/-- The expression without `elif` branches. -/
def Expr.nest : Expr β → Expr β
  | .literal value => .literal value
  | .grouping inner => .grouping inner.nest
  | .unary op line operand => .unary op line operand.nest
  | .binary left op line right => .binary left.nest op line right.nest
  | .logical left op line right => .logical left.nest op line right.nest
  | .variable target => .variable target
  | .assign target value => .assign target value.nest
  | .call callee line arguments => .call callee.nest line (nestExprs arguments)
  | .get object property => .get object.nest property
  | .set object field value => .set object.nest field value.nest
  | .this line binding => .this line binding
  | .super line method binding => .super line method binding
  | .lambda line parameters body => .lambda line parameters (nestStmts body)

/-- The expressions without `elif` branches. -/
def nestExprs : List (Expr β) → List (Expr β)
  | [] => []
  | e :: rest => e.nest :: nestExprs rest

/-- The statement without `elif` branches. -/
def Stmt.nest : Stmt β → Stmt β
  | .expression value => .expression value.nest
  | .print value => .print value.nest
  | .var name none => .var name none
  | .var name (some value) => .var name (some value.nest)
  | .block body => .block (nestStmts body)
  | .ifStmt condition thenBranch elifs none =>
      .ifStmt condition.nest thenBranch.nest [] (nestChain elifs none)
  | .ifStmt condition thenBranch elifs (some last) =>
      .ifStmt condition.nest thenBranch.nest [] (nestChain elifs (some last.nest))
  | .whileStmt condition body => .whileStmt condition.nest body.nest
  | .functionDecl f => .functionDecl f.nest
  | .returnStmt line none => .returnStmt line none
  | .returnStmt line (some value) => .returnStmt line (some value.nest)
  | .breakStmt line => .breakStmt line
  | .classDecl name superclass methods => .classDecl name superclass (nestFunctions methods)

/-- The statements without `elif` branches. -/
def nestStmts : List (Stmt β) → List (Stmt β)
  | [] => []
  | s :: rest => s.nest :: nestStmts rest

/-- The last branch of a choice that stands for further branches, with what is their last
branch. -/
def nestChain : List (Elif β) → Option (Stmt β) → Option (Stmt β)
  | [], last => last
  | .mk condition body :: rest, last =>
      some (.ifStmt condition.nest body.nest [] (nestChain rest last))

/-- The function without `elif` branches. -/
def Function.nest : Function β → Function β
  | .mk name parameters body => .mk name parameters (nestStmts body)

/-- The functions without `elif` branches. -/
def nestFunctions : List (Function β) → List (Function β)
  | [] => []
  | f :: rest => f.nest :: nestFunctions rest

end

@[simp] theorem length_nestExprs (es : List (Expr β)) : (nestExprs es).length = es.length := by
  induction es with
  | nil => rfl
  | cons e rest ih => rw [nestExprs, List.length_cons, List.length_cons, ih]

@[simp] theorem length_nestStmts (body : List (Stmt β)) :
    (nestStmts body).length = body.length := by
  induction body with
  | nil => rfl
  | cons s rest ih => rw [nestStmts, List.length_cons, List.length_cons, ih]

@[simp] theorem Function.name_nest (f : Function β) : f.nest.name = f.name := by
  cases f
  rfl

theorem Stmt.nest_var (name : Name) (initializer : Option (Expr β)) :
    (Stmt.var name initializer).nest = .var name (initializer.map Expr.nest) := by
  cases initializer <;> rfl

theorem Stmt.nest_returnStmt (line : Nat) (value : Option (Expr β)) :
    (Stmt.returnStmt line value).nest = .returnStmt line (value.map Expr.nest) := by
  cases value <;> rfl

theorem Stmt.nest_forLoop (start : Option (Stmt β)) (condition step : Option (Expr β))
    (body : Stmt β) :
    (Stmt.forLoop start condition step body).nest =
      .forLoop (start.map Stmt.nest) (condition.map Expr.nest) (step.map Expr.nest)
        body.nest := by
  cases start <;> cases condition <;> cases step <;> rfl

end

end ClassScript
