import ClassScript.Diagnostic
import ClassScript.Syntax.Tree

/-!
# Lines of trees

Names, operators and some words of a program carry the lines they stand on.
`Stmt.reline f` replaces every line `l` of a statement by `f l` and keeps the rest, and
there is one such function for each kind of tree.

Relining twice is relining once (`relineStmts_comp`), and relining by the identity changes
nothing (`relineStmts_id`).
-/

namespace ClassScript

variable {β : Type}

/-! ## Relining -/

/-- A token on another line. -/
def Token.reline (f : Nat → Nat) (t : Token) : Token := { t with line := f t.line }

/-- A report on another line. -/
def Diagnostic.reline (f : Nat → Nat) (d : Diagnostic) : Diagnostic := { d with line := f d.line }

/-- A name on another line. -/
def Name.reline (f : Nat → Nat) (name : Name) : Name := ⟨name.text, f name.line⟩

/-- A name in use on another line, with its binding. -/
def Reference.reline (f : Nat → Nat) (r : Reference β) : Reference β :=
  ⟨r.name.reline f, r.binding⟩

mutual

/-- An expression on other lines. -/
def Expr.reline (f : Nat → Nat) : Expr β → Expr β
  | .literal value => .literal value
  | .grouping inner => .grouping (inner.reline f)
  | .unary op line operand => .unary op (f line) (operand.reline f)
  | .binary left op line right => .binary (left.reline f) op (f line) (right.reline f)
  | .logical left op line right => .logical (left.reline f) op (f line) (right.reline f)
  | .variable target => .variable (target.reline f)
  | .assign target value => .assign (target.reline f) (value.reline f)
  | .call callee line arguments => .call (callee.reline f) (f line) (relineExprs f arguments)
  | .get object property => .get (object.reline f) (property.reline f)
  | .set object field value => .set (object.reline f) (field.reline f) (value.reline f)
  | .this line binding => .this (f line) binding
  | .super line method binding => .super (f line) (method.reline f) binding
  | .lambda line parameters body =>
      .lambda (f line) (parameters.map (Name.reline f)) (relineStmts f body)

/-- Expressions on other lines. -/
def relineExprs (f : Nat → Nat) : List (Expr β) → List (Expr β)
  | [] => []
  | e :: rest => e.reline f :: relineExprs f rest

/-- A statement on other lines. -/
def Stmt.reline (f : Nat → Nat) : Stmt β → Stmt β
  | .expression value => .expression (value.reline f)
  | .print value => .print (value.reline f)
  | .var name none => .var (name.reline f) none
  | .var name (some value) => .var (name.reline f) (some (value.reline f))
  | .block body => .block (relineStmts f body)
  | .ifStmt condition thenBranch elifs none =>
      .ifStmt (condition.reline f) (thenBranch.reline f) (relineElifs f elifs) none
  | .ifStmt condition thenBranch elifs (some s) =>
      .ifStmt (condition.reline f) (thenBranch.reline f) (relineElifs f elifs) (some (s.reline f))
  | .whileStmt condition body => .whileStmt (condition.reline f) (body.reline f)
  | .functionDecl declaration => .functionDecl (declaration.reline f)
  | .returnStmt line none => .returnStmt (f line) none
  | .returnStmt line (some value) => .returnStmt (f line) (some (value.reline f))
  | .breakStmt line => .breakStmt (f line)
  | .classDecl name superclass methods =>
      .classDecl (name.reline f) (superclass.map (Reference.reline f)) (relineFunctions f methods)

/-- Statements on other lines. -/
def relineStmts (f : Nat → Nat) : List (Stmt β) → List (Stmt β)
  | [] => []
  | s :: rest => s.reline f :: relineStmts f rest

/-- Branches of a choice on other lines. -/
def relineElifs (f : Nat → Nat) : List (Elif β) → List (Elif β)
  | [] => []
  | .mk condition body :: rest => .mk (condition.reline f) (body.reline f) :: relineElifs f rest

/-- A function on other lines. -/
def Function.reline (f : Nat → Nat) : Function β → Function β
  | .mk name parameters body =>
      .mk (name.reline f) (parameters.map (Name.reline f)) (relineStmts f body)

/-- Functions on other lines. -/
def relineFunctions (f : Nat → Nat) : List (Function β) → List (Function β)
  | [] => []
  | declaration :: rest => declaration.reline f :: relineFunctions f rest

end

/-- A name on another line is the same word. -/
@[simp] theorem Name.text_reline (f : Nat → Nat) (name : Name) :
    (name.reline f).text = name.text := rfl

/-- A call has as many arguments on other lines. -/
theorem length_relineExprs (f : Nat → Nat) (es : List (Expr β)) :
    (relineExprs f es).length = es.length := by
  induction es with
  | nil => rfl
  | cons e rest ih => simp [relineExprs, ih]

theorem Stmt.reline_var (f : Nat → Nat) (name : Name) (initializer : Option (Expr β)) :
    (Stmt.var name initializer).reline f =
      .var (name.reline f) (initializer.map (Expr.reline f)) := by
  cases initializer <;> rfl

theorem Stmt.reline_ifStmt (f : Nat → Nat) (condition : Expr β) (thenBranch : Stmt β)
    (elifs : List (Elif β)) (elseBranch : Option (Stmt β)) :
    (Stmt.ifStmt condition thenBranch elifs elseBranch).reline f =
      .ifStmt (condition.reline f) (thenBranch.reline f) (relineElifs f elifs)
        (elseBranch.map (Stmt.reline f)) := by
  cases elseBranch <;> rfl

theorem Stmt.reline_returnStmt (f : Nat → Nat) (line : Nat) (value : Option (Expr β)) :
    (Stmt.returnStmt line value).reline f =
      .returnStmt (f line) (value.map (Expr.reline f)) := by
  cases value <;> rfl

/-- What a `for` statement stands for moves with its parts. -/
theorem Stmt.reline_forLoop (f : Nat → Nat) (start : Option (Stmt β))
    (condition step : Option (Expr β)) (body : Stmt β) :
    (Stmt.forLoop start condition step body).reline f =
      .forLoop (start.map (Stmt.reline f)) (condition.map (Expr.reline f))
        (step.map (Expr.reline f)) (body.reline f) := by
  cases start <;> cases condition <;> cases step <;> rfl

/-! ## Relining by the identity -/

@[simp] theorem Name.reline_id : (Name.reline id : Name → Name) = id := rfl

@[simp] theorem Reference.reline_id : (Reference.reline id : Reference β → Reference β) = id := rfl

mutual

/-- Lines that stay where they are change no expression. -/
theorem Expr.reline_id (e : Expr β) : e.reline id = e := by
  match e with
  | .literal _ => rfl
  | .grouping inner => simp [Expr.reline, Expr.reline_id inner]
  | .unary _ _ operand => simp [Expr.reline, Expr.reline_id operand]
  | .binary left _ _ right | .logical left _ _ right =>
    simp [Expr.reline, Expr.reline_id left, Expr.reline_id right]
  | .variable _ => simp [Expr.reline]
  | .assign _ value => simp [Expr.reline, Expr.reline_id value]
  | .call callee _ arguments =>
    simp [Expr.reline, Expr.reline_id callee, relineExprs_id arguments]
  | .get object _ => simp [Expr.reline, Expr.reline_id object]
  | .set object _ value => simp [Expr.reline, Expr.reline_id object, Expr.reline_id value]
  | .this _ _ | .super _ _ _ => simp [Expr.reline]
  | .lambda _ _ body => simp [Expr.reline, relineStmts_id body]

theorem relineExprs_id (es : List (Expr β)) : relineExprs id es = es := by
  match es with
  | [] => rfl
  | e :: rest => simp [relineExprs, Expr.reline_id e, relineExprs_id rest]

/-- They change no statement. -/
theorem Stmt.reline_id (s : Stmt β) : s.reline id = s := by
  match s with
  | .expression value | .print value => simp [Stmt.reline, Expr.reline_id value]
  | .var _ none | .returnStmt _ none | .breakStmt _ => simp [Stmt.reline]
  | .var _ (some value) | .returnStmt _ (some value) => simp [Stmt.reline, Expr.reline_id value]
  | .block body => simp [Stmt.reline, relineStmts_id body]
  | .ifStmt condition thenBranch elifs none =>
    simp [Stmt.reline, Expr.reline_id condition, Stmt.reline_id thenBranch, relineElifs_id elifs]
  | .ifStmt condition thenBranch elifs (some s) =>
    simp [Stmt.reline, Expr.reline_id condition, Stmt.reline_id thenBranch, relineElifs_id elifs,
      Stmt.reline_id s]
  | .whileStmt condition body =>
    simp [Stmt.reline, Expr.reline_id condition, Stmt.reline_id body]
  | .functionDecl declaration => simp [Stmt.reline, Function.reline_id declaration]
  | .classDecl _ _ methods => simp [Stmt.reline, relineFunctions_id methods]

theorem relineStmts_id (body : List (Stmt β)) : relineStmts id body = body := by
  match body with
  | [] => rfl
  | s :: rest => simp [relineStmts, Stmt.reline_id s, relineStmts_id rest]

theorem relineElifs_id (branches : List (Elif β)) : relineElifs id branches = branches := by
  match branches with
  | [] => rfl
  | .mk condition body :: rest =>
    simp [relineElifs, Expr.reline_id condition, Stmt.reline_id body, relineElifs_id rest]

theorem Function.reline_id (declaration : Function β) : declaration.reline id = declaration := by
  match declaration with
  | .mk _ _ body => simp [Function.reline, relineStmts_id body]

theorem relineFunctions_id (fs : List (Function β)) : relineFunctions id fs = fs := by
  match fs with
  | [] => rfl
  | declaration :: rest =>
    simp [relineFunctions, Function.reline_id declaration, relineFunctions_id rest]

end

/-! ## Relining twice -/

variable (f g : Nat → Nat)

theorem Name.reline_comp (name : Name) : (name.reline f).reline g = name.reline (g ∘ f) := rfl

theorem Name.map_reline_comp (names : List Name) :
    (names.map (Name.reline f)).map (Name.reline g) = names.map (Name.reline (g ∘ f)) := by
  rw [List.map_map]
  rfl

theorem Reference.reline_comp (r : Reference β) :
    (r.reline f).reline g = r.reline (g ∘ f) := rfl

mutual

/-- Lines may be changed one after the other, or at once. -/
theorem Expr.reline_comp (e : Expr β) : (e.reline f).reline g = e.reline (g ∘ f) := by
  match e with
  | .literal _ => rfl
  | .grouping inner => simp [Expr.reline, Expr.reline_comp inner]
  | .unary _ _ operand => simp [Expr.reline, Expr.reline_comp operand]
  | .binary left _ _ right | .logical left _ _ right =>
    simp [Expr.reline, Expr.reline_comp left, Expr.reline_comp right]
  | .variable _ => simp [Expr.reline, Reference.reline_comp]
  | .assign _ value => simp [Expr.reline, Reference.reline_comp, Expr.reline_comp value]
  | .call callee _ arguments =>
    simp [Expr.reline, Expr.reline_comp callee, relineExprs_comp arguments]
  | .get object _ => simp [Expr.reline, Name.reline_comp, Expr.reline_comp object]
  | .set object _ value =>
    simp [Expr.reline, Name.reline_comp, Expr.reline_comp object, Expr.reline_comp value]
  | .this _ _ | .super _ _ _ => simp [Expr.reline, Name.reline_comp]
  | .lambda _ _ body => simp only [Expr.reline, Name.map_reline_comp, relineStmts_comp body]; rfl

theorem relineExprs_comp (es : List (Expr β)) :
    relineExprs g (relineExprs f es) = relineExprs (g ∘ f) es := by
  match es with
  | [] => rfl
  | e :: rest => simp [relineExprs, Expr.reline_comp e, relineExprs_comp rest]

/-- The same holds of the lines of a statement. -/
theorem Stmt.reline_comp (s : Stmt β) : (s.reline f).reline g = s.reline (g ∘ f) := by
  match s with
  | .expression value | .print value => simp [Stmt.reline, Expr.reline_comp value]
  | .var _ none | .returnStmt _ none | .breakStmt _ => simp [Stmt.reline, Name.reline_comp]
  | .var _ (some value) | .returnStmt _ (some value) =>
    simp [Stmt.reline, Name.reline_comp, Expr.reline_comp value]
  | .block body => simp [Stmt.reline, relineStmts_comp body]
  | .ifStmt condition thenBranch elifs none =>
    simp [Stmt.reline, Expr.reline_comp condition, Stmt.reline_comp thenBranch,
      relineElifs_comp elifs]
  | .ifStmt condition thenBranch elifs (some s) =>
    simp [Stmt.reline, Expr.reline_comp condition, Stmt.reline_comp thenBranch,
      relineElifs_comp elifs, Stmt.reline_comp s]
  | .whileStmt condition body =>
    simp [Stmt.reline, Expr.reline_comp condition, Stmt.reline_comp body]
  | .functionDecl declaration => simp [Stmt.reline, Function.reline_comp declaration]
  | .classDecl _ superclass methods =>
    cases superclass <;>
      simp [Stmt.reline, Name.reline_comp, Reference.reline_comp, relineFunctions_comp methods]

theorem relineStmts_comp (body : List (Stmt β)) :
    relineStmts g (relineStmts f body) = relineStmts (g ∘ f) body := by
  match body with
  | [] => rfl
  | s :: rest => simp [relineStmts, Stmt.reline_comp s, relineStmts_comp rest]

theorem relineElifs_comp (branches : List (Elif β)) :
    relineElifs g (relineElifs f branches) = relineElifs (g ∘ f) branches := by
  match branches with
  | [] => rfl
  | .mk condition body :: rest =>
    simp [relineElifs, Expr.reline_comp condition, Stmt.reline_comp body, relineElifs_comp rest]

theorem Function.reline_comp (declaration : Function β) :
    (declaration.reline f).reline g = declaration.reline (g ∘ f) := by
  match declaration with
  | .mk _ _ body =>
    simp only [Function.reline, Name.reline_comp, Name.map_reline_comp, relineStmts_comp body]

theorem relineFunctions_comp (fs : List (Function β)) :
    relineFunctions g (relineFunctions f fs) = relineFunctions (g ∘ f) fs := by
  match fs with
  | [] => rfl
  | declaration :: rest =>
    simp [relineFunctions, Function.reline_comp declaration, relineFunctions_comp rest]

end

end ClassScript
