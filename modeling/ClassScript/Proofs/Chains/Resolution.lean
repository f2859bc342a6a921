import ClassScript.Proofs.Chains.Tree
import ClassScript.Proofs.Shape.Relation
import ClassScript.Scope.Resolution

/-!
# Resolving chains of choices

The branches of a choice are resolved in the order in which they are written, in the scope
of the choice, and so are the choices that stand for them.  So a tree without `elif` branches
is resolved to what the tree with them is resolved to, without them, with the same reports and
records (`Resolution.ofProgram_nestStmts`).

Both trees have the same scopes, so every reference has the same binding in both, and the
trees are of different shape only in their chains (`reshaped_nestStmts`).
-/

namespace ClassScript

namespace Resolution

/-- A step that shapes the value may be taken after the scope is closed. -/
theorem inScope_map {α β : Type} (scope : StaticScope) (f : α → β) (step : Walk α) :
    inScope scope (f <$> step) = f <$> inScope scope step := rfl

/-- It may be taken after the scopes of a class are closed, too. -/
theorem inClass_map {α β : Type} (derived : Bool) (f : α → β) (step : Walk α) :
    inClass derived (f <$> step) = f <$> inClass derived step := by
  cases derived <;> rfl

/-- The last branch of a choice with its bindings, if there is one. -/
def resolveLast (context : Context) : Option (Stmt Unit) → Walk (Option (Stmt Binding))
  | none => return none
  | some s => return some (← resolveStmt context s)

theorem resolveLast_none (context : Context) : resolveLast context none = pure none := rfl

theorem resolveLast_some (context : Context) (s : Stmt Unit) :
    resolveLast context (some s) = some <$> resolveStmt context s := rfl

/-- A choice is resolved in order: its condition, its branches, its last branch. -/
theorem resolveStmt_ifStmt (context : Context) (condition : Expr Unit) (thenBranch : Stmt Unit)
    (elifs : List (Elif Unit)) (last : Option (Stmt Unit)) :
    resolveStmt context (.ifStmt condition thenBranch elifs last) = do
      let condition ← resolveExpr context condition
      let thenBranch ← resolveStmt context thenBranch
      let elifs ← resolveElifs context elifs
      return .ifStmt condition thenBranch elifs (← resolveLast context last) := by
  cases last <;> simp [resolveStmt, resolveLast]

mutual

/-- An expression is resolved to the nested form of what it is resolved to. -/
theorem resolveExpr_nest (context : Context) (e : Expr Unit) :
    resolveExpr context e.nest = Expr.nest <$> resolveExpr context e := by
  match e with
  | .literal _ => simp [Expr.nest, resolveExpr]
  | .grouping inner => simp [Expr.nest, resolveExpr, resolveExpr_nest context inner]
  | .unary _ _ operand => simp [Expr.nest, resolveExpr, resolveExpr_nest context operand]
  | .binary left _ _ right | .logical left _ _ right =>
    simp [Expr.nest, resolveExpr, resolveExpr_nest context left, resolveExpr_nest context right]
  | .variable _ => simp [Expr.nest, resolveExpr]
  | .assign _ value => simp [Expr.nest, resolveExpr, resolveExpr_nest context value]
  | .call callee _ arguments =>
    simp [Expr.nest, resolveExpr, resolveExpr_nest context callee,
      resolveExprs_nest context arguments]
  | .get object _ => simp [Expr.nest, resolveExpr, resolveExpr_nest context object]
  | .set object _ value =>
    simp [Expr.nest, resolveExpr, resolveExpr_nest context object, resolveExpr_nest context value]
  | .this _ _ | .super _ _ _ => simp [Expr.nest, resolveExpr]
  | .lambda _ _ body =>
    simp [Expr.nest, resolveExpr, resolveStmts_nest _ body, ← map_bind, inScope_map]

theorem resolveExprs_nest (context : Context) (es : List (Expr Unit)) :
    resolveExprs context (nestExprs es) = nestExprs <$> resolveExprs context es := by
  match es with
  | [] => simp [nestExprs, resolveExprs]
  | e :: rest =>
    simp [nestExprs, resolveExprs, resolveExpr_nest context e, resolveExprs_nest context rest]

/-- A statement is resolved to the nested form of what it is resolved to. -/
theorem resolveStmt_nest (context : Context) (s : Stmt Unit) :
    resolveStmt context s.nest = Stmt.nest <$> resolveStmt context s := by
  match s with
  | .expression value | .print value =>
    simp [Stmt.nest, resolveStmt, resolveExpr_nest context value]
  | .var _ none | .returnStmt _ none | .breakStmt _ => simp [Stmt.nest, resolveStmt]
  | .var _ (some value) | .returnStmt _ (some value) =>
    simp [Stmt.nest, resolveStmt, resolveExpr_nest context value]
  | .block body => simp [Stmt.nest, resolveStmt, resolveStmts_nest context body, inScope_map]
  | .ifStmt condition thenBranch elifs none =>
    simp [Stmt.nest, resolveStmt_ifStmt, resolveElifs, resolveExpr_nest context condition,
      resolveStmt_nest context thenBranch, resolveLast_nestChain context elifs none,
      resolveLast_none]
  | .ifStmt condition thenBranch elifs (some last) =>
    simp [Stmt.nest, resolveStmt_ifStmt, resolveElifs, resolveExpr_nest context condition,
      resolveStmt_nest context thenBranch, resolveLast_nestChain context elifs (some last.nest),
      resolveLast_some, resolveStmt_nest context last]
  | .whileStmt condition body =>
    simp [Stmt.nest, resolveStmt, resolveExpr_nest context condition, resolveStmt_nest context body]
  | .functionDecl f =>
    simp [Stmt.nest, resolveStmt, resolveFunction_nest context .function f]
  | .classDecl _ _ methods =>
    simp [Stmt.nest, resolveStmt, resolveMethods_nest _ methods, inClass_map]

theorem resolveStmts_nest (context : Context) (body : List (Stmt Unit)) :
    resolveStmts context (nestStmts body) = nestStmts <$> resolveStmts context body := by
  match body with
  | [] => simp [nestStmts, resolveStmts]
  | s :: rest =>
    simp [nestStmts, resolveStmts, resolveStmt_nest context s, resolveStmts_nest context rest]

/-- The choices that stand for further branches are resolved as these are. -/
theorem resolveLast_nestChain (context : Context) (branches : List (Elif Unit))
    (last : Option (Stmt Unit)) :
    resolveLast context (nestChain branches last) = do
      let branches ← resolveElifs context branches
      return nestChain branches (← resolveLast context last) := by
  match branches with
  | [] => simp [nestChain, resolveElifs]
  | .mk condition body :: rest =>
    simp [nestChain, resolveElifs, resolveLast_some, resolveStmt_ifStmt,
      resolveExpr_nest context condition, resolveStmt_nest context body,
      resolveLast_nestChain context rest last]

/-- The body of a function is nested in the scope of its parameters. -/
theorem resolveFunction_nest (context : Context) (kind : FunctionContext) (f : Function Unit) :
    resolveFunction context kind f.nest = Function.nest <$> resolveFunction context kind f := by
  match f with
  | .mk _ _ body =>
    simp [Function.nest, resolveFunction, resolveStmts_nest _ body, ← map_bind, inScope_map]

theorem resolveMethods_nest (context : Context) (methods : List (Function Unit)) :
    resolveMethods context (nestFunctions methods) =
      nestFunctions <$> resolveMethods context methods := by
  match methods with
  | [] => simp [nestFunctions, resolveMethods]
  | f :: rest =>
    simp [nestFunctions, resolveMethods, resolveFunction_nest context _ f,
      resolveMethods_nest context rest]

end

/-- A program without `elif` branches is resolved as the one with them. -/
theorem ofProgram_nestStmts (program : Program Unit) :
    ofProgram (nestStmts program) =
      { ofProgram program with program := nestStmts (ofProgram program).program } := by
  unfold ofProgram
  rw [resolveStmts_nest]
  rfl

end Resolution

/-! ## The shape of resolved trees -/

section

variable {marks : List ScopeMark}

/-- Where all scopes are shared, a distance is the same in both trees. -/
theorem Binding.shifted_refl (h : ∀ mark ∈ marks, mark = .shared) (b : Binding) :
    b.Shifted marks b := by
  cases b with
  | global => exact .global
  | «local» d => exact .local (Shifts.refl h d)

/-- So are both distances of `super`. -/
theorem Binding.shiftedSuper_refl (h : ∀ mark ∈ marks, mark = .shared) (b : Binding) :
    b.ShiftedSuper marks b := by
  cases b with
  | global => exact .global
  | «local» d => exact .local (Shifts.refl h d) (Shifts.refl h (d - 1))

theorem Reference.shifted_refl (h : ∀ mark ∈ marks, mark = .shared) (r : Reference Binding) :
    r.Shifted marks r :=
  .mk r.name (Binding.shifted_refl h r.binding)

theorem Reference.shifted_option (h : ∀ mark ∈ marks, mark = .shared)
    (r : Option (Reference Binding)) : Option.Rel (Reference.Shifted marks) r r := by
  cases r with
  | none => exact .none
  | some r => exact .some (Reference.shifted_refl h r)

theorem ScopeMark.shared_inner (h : ∀ mark ∈ marks, mark = .shared) :
    ∀ mark ∈ ScopeMark.shared :: marks, mark = .shared :=
  List.forall_mem_cons.mpr ⟨rfl, h⟩

/-- The scopes of a class are shared, too. -/
theorem ScopeMark.shared_ofClass (h : ∀ mark ∈ marks, mark = .shared) (derived : Bool) :
    ∀ mark ∈ ScopeMark.ofClass derived marks, mark = .shared := by
  cases derived with
  | false => exact shared_inner h
  | true => exact shared_inner (shared_inner h)

end

mutual

/-- In shared scopes, an expression and its nested form differ in their chains alone. -/
theorem Expr.reshaped_nest {marks : List ScopeMark} (h : ∀ mark ∈ marks, mark = .shared) :
    ∀ e : Expr Binding, e.Reshaped .chains marks e.nest
  | .literal value => .literal value
  | .grouping inner => .grouping (inner.reshaped_nest h)
  | .unary op line operand => .unary op line (operand.reshaped_nest h)
  | .binary left op line right => .binary op line (left.reshaped_nest h) (right.reshaped_nest h)
  | .logical left op line right => .logical op line (left.reshaped_nest h) (right.reshaped_nest h)
  | .variable target => .variable (Reference.shifted_refl h target)
  | .assign target value => .assign (Reference.shifted_refl h target) (value.reshaped_nest h)
  | .call callee line arguments =>
      .call line (callee.reshaped_nest h) (reshaped_nestExprs h arguments)
  | .get object property => .get property (object.reshaped_nest h)
  | .set object field value => .set field (object.reshaped_nest h) (value.reshaped_nest h)
  | .this line b => .this line (Binding.shifted_refl h b)
  | .super line method b => .super line method (Binding.shiftedSuper_refl h b)
  | .lambda line parameters body =>
      .lambda line parameters (reshaped_nestStmts (ScopeMark.shared_inner h) body)

theorem reshaped_nestExprs {marks : List ScopeMark} (h : ∀ mark ∈ marks, mark = .shared) :
    ∀ es : List (Expr Binding), ExprsReshaped .chains marks es (nestExprs es)
  | [] => .nil
  | e :: rest => .cons (e.reshaped_nest h) (reshaped_nestExprs h rest)

/-- In shared scopes, a statement and its nested form differ in their chains alone. -/
theorem Stmt.reshaped_nest {marks : List ScopeMark} (h : ∀ mark ∈ marks, mark = .shared) :
    ∀ s : Stmt Binding, s.Reshaped .chains marks s.nest
  | .expression value => .expression (value.reshaped_nest h)
  | .print value => .print (value.reshaped_nest h)
  | .var name none => .varNone name (Shifts.refl h 0)
  | .var name (some value) => .var name (Shifts.refl h 0) (value.reshaped_nest h)
  | .block body => .block (reshaped_nestStmts (ScopeMark.shared_inner h) body)
  | .ifStmt condition thenBranch elifs none =>
      .ifStmt (condition.reshaped_nest h) (thenBranch.reshaped_nest h)
        (reshaped_nestChain h elifs .none)
  | .ifStmt condition thenBranch elifs (some last) =>
      .ifStmt (condition.reshaped_nest h) (thenBranch.reshaped_nest h)
        (reshaped_nestChain h elifs (.some (last.reshaped_nest h)))
  | .whileStmt condition body =>
      .whileStmt (condition.reshaped_nest h) (.whole nofun (body.reshaped_nest h))
  | .functionDecl f => .functionDecl (Shifts.refl h 0) (f.reshaped_nest h)
  | .returnStmt line none => .returnNone line
  | .returnStmt line (some value) => .returnStmt line (value.reshaped_nest h)
  | .breakStmt line => .breakStmt line
  | .classDecl name superclass methods =>
      .classDecl name (Shifts.refl h 0) (Reference.shifted_option h superclass)
        (reshaped_nestFunctions (ScopeMark.shared_ofClass h superclass.isSome) methods)

/-- So do statements in sequence. -/
theorem reshaped_nestStmts {marks : List ScopeMark} (h : ∀ mark ∈ marks, mark = .shared) :
    ∀ body : List (Stmt Binding), StmtsReshaped .chains marks body (nestStmts body)
  | [] => .nil
  | s :: rest => .cons (s.reshaped_nest h) (reshaped_nestStmts h rest)

/-- Further branches and the choices that stand for them. -/
theorem reshaped_nestChain {marks : List ScopeMark} (h : ∀ mark ∈ marks, mark = .shared) :
    ∀ (branches : List (Elif Binding)) {last last' : Option (Stmt Binding)},
      ChainReshaped .chains marks [] last [] last' →
      ChainReshaped .chains marks branches last [] (nestChain branches last')
  | [], _, _, hlast => hlast
  | .mk condition body :: rest, _, _, hlast =>
      .nest rfl (condition.reshaped_nest h) (body.reshaped_nest h)
        (reshaped_nestChain h rest hlast)

/-- The body of a function is in a shared scope in both forms. -/
theorem Function.reshaped_nest {marks : List ScopeMark} (h : ∀ mark ∈ marks, mark = .shared) :
    ∀ f : Function Binding, f.Reshaped .chains marks f.nest
  | .mk name parameters body =>
      .mk name parameters (reshaped_nestStmts (ScopeMark.shared_inner h) body)

theorem reshaped_nestFunctions {marks : List ScopeMark} (h : ∀ mark ∈ marks, mark = .shared) :
    ∀ fs : List (Function Binding), FunctionsReshaped .chains marks fs (nestFunctions fs)
  | [] => .nil
  | f :: rest => .cons (f.reshaped_nest h) (reshaped_nestFunctions h rest)

end

end ClassScript
