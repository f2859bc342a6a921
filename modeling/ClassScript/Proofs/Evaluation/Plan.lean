import ClassScript.Proofs.Evaluation.Steps
import ClassScript.Proofs.Syntax.Parts

/-!
# Plans

Evaluation is recursive.  To speak of everything that it comes across, one level
of it is written as a *plan*: steps of its own, and calls of evaluation on
further codes, each with the number of calls in progress.  Following a plan, with
evaluation at one unit of fuel less for its calls, is evaluation
(`Code.run_succ`).
-/

namespace ClassScript

open Run

/-! ## Codes -/

/-- What a call of evaluation works on. -/
inductive Code where
  /-- A piece of a program in an environment. -/
  | node (env : EnvId) (n : Node Binding)
  /-- A call that was checked. -/
  | invoke (callee : Value) (values : List Value)
  /-- The code of a function with its arguments. -/
  | closure (code : Closure) (values : List Value)

/-- How the evaluation of a code completes. -/
abbrev Code.Result : Code → Type
  | .node _ (.expr _) => Value
  | .node _ (.exprs _) => List Value
  | .node _ (.stmt _) => Completion
  | .node _ (.stmts _) => Completion
  | .node _ (.elifs _ _) => Completion
  | .node _ (.loop _ _) => Completion
  | .invoke _ _ => Value
  | .closure _ _ => Value

/-- The evaluation of a code. -/
def Code.run (settings : Settings) (fuel depth : Nat) : (code : Code) → Run code.Result
  | .node env (.expr e) => evaluate settings fuel depth env e
  | .node env (.exprs es) => evaluateAll settings fuel depth env es
  | .node env (.stmt s) => execute settings fuel depth env s
  | .node env (.stmts body) => executeAll settings fuel depth env body
  | .node env (.elifs branches elseBranch) =>
      executeElifs settings fuel depth env branches elseBranch
  | .node env (.loop condition body) => executeLoop settings fuel depth env condition body
  | .invoke callee values => Run.invoke settings fuel depth callee values
  | .closure code values => runCode settings fuel depth code values

/-! ## Plans -/

/-- One level of an evaluation. -/
inductive Plan (α : Type) : Type 1 where
  /-- The end. -/
  | finish (a : α)
  /-- A step of its own. -/
  | act {β : Type} (step : Run β) (next : β → Plan α)
  /-- The evaluation of another code, as the part of the given number. -/
  | call (part depth : Nat) (code : Code) (next : code.Result → Plan α)

namespace Plan

variable {α β : Type}

/-- A plan and then another one. -/
def bind : Plan α → (α → Plan β) → Plan β
  | finish a, f => f a
  | act step next, f => act step fun b => bind (next b) f
  | call part depth code next, f => call part depth code fun a => bind (next a) f

instance : Monad Plan where
  pure := finish
  bind := bind

/-- A single step. -/
def lift (step : Run α) : Plan α := act step finish

/-- The visit of an expression. -/
def expr (part depth : Nat) (env : EnvId) (e : Expr Binding) : Plan Value :=
  call part depth (.node env (.expr e)) finish

/-- The visit of arguments. -/
def exprs (part depth : Nat) (env : EnvId) (es : List (Expr Binding)) : Plan (List Value) :=
  call part depth (.node env (.exprs es)) finish

/-- The visit of a statement. -/
def stmt (part depth : Nat) (env : EnvId) (s : Stmt Binding) : Plan Completion :=
  call part depth (.node env (.stmt s)) finish

/-- The visit of statements in sequence. -/
def stmts (part depth : Nat) (env : EnvId) (body : List (Stmt Binding)) : Plan Completion :=
  call part depth (.node env (.stmts body)) finish

/-- The visit of the branches of a choice. -/
def elifs (part depth : Nat) (env : EnvId) (branches : List (Elif Binding))
    (elseBranch : Option (Stmt Binding)) : Plan Completion :=
  call part depth (.node env (.elifs branches elseBranch)) finish

/-- The visit of a loop. -/
def loop (part depth : Nat) (env : EnvId) (condition : Expr Binding) (body : Stmt Binding) :
    Plan Completion :=
  call part depth (.node env (.loop condition body)) finish

/-- The visit of a checked call. -/
def invoke (part depth : Nat) (callee : Value) (values : List Value) : Plan Value :=
  call part depth (.invoke callee values) finish

/-- The visit of the code of a function. -/
def closure (part depth : Nat) (code : Closure) (values : List Value) : Plan Value :=
  call part depth (.closure code values) finish

/-- A note that is written from the given level on. -/
def note (settings : Settings) (level : Nat) (line : String) : Plan Unit :=
  lift (if level ≤ settings.verbosity then emit (.noted line) else pure ())

/-- What a plan does, if `child` evaluates the codes that it visits. -/
def follow (child : (depth : Nat) → (code : Code) → Run code.Result) : Plan α → Run α
  | finish a => pure a
  | act step next => do
    let b ← step
    follow child (next b)
  | call _ depth code next => do
    let a ← child depth code
    follow child (next a)

end Plan

/-- One level of the evaluation of an expression. -/
def Expr.plan (settings : Settings) (depth : Nat) (env : EnvId) : Expr Binding → Plan Value
  | .literal value => return .ofLiteral value
  | .grouping inner => Plan.expr 0 depth env inner
  | .unary op line operand => do
    let a ← Plan.expr 0 depth env operand
    Plan.lift (orFail line (op.apply a))
  | .binary left op line right => do
    let a ← Plan.expr 0 depth env left
    let b ← Plan.expr 1 depth env right
    Plan.lift (orFail line (op.apply a b))
  | .logical left op _ right => do
    let a ← Plan.expr 0 depth env left
    if op.decides a then return a else Plan.expr 1 depth env right
  | .variable target => Plan.lift (read settings env target.name target.binding)
  | .assign target value => do
    let a ← Plan.expr 0 depth env value
    let _ ← Plan.lift (write settings env target.name target.binding a)
    return a
  | .call callee line arguments => do
    let f ← Plan.expr 0 depth env callee
    let values ← Plan.exprs 1 depth env arguments
    let _ ← Plan.lift (checkCall settings depth f values.length line)
    Plan.invoke 2 (depth + 1) f values
  | .get object property => do
    match ← Plan.expr 0 depth env object with
    | .object id definition => Plan.lift (getProperty id definition property)
    | _ => Plan.lift (fail .noProperties property.line)
  | .set object field value => do
    match ← Plan.expr 0 depth env object with
    | .object id _ =>
      let a ← Plan.expr 1 depth env value
      let _ ← Plan.lift (modifyHeap (·.setField id field.text a))
      return a
    | _ => Plan.lift (fail .noFields field.line)
  | .this line binding => Plan.lift (read settings env ⟨"this", line⟩ binding)
  | .super _ method binding => Plan.lift (getSuper env binding method)
  | .lambda _ parameters body => Plan.lift (newFunction ⟨none, parameters, body, env, false⟩)

/-- One level of the execution of a statement. -/
def Stmt.plan (settings : Settings) (depth : Nat) (env : EnvId) : Stmt Binding → Plan Completion
  | .expression value => do
    let _ ← Plan.expr 0 depth env value
    return .normal
  | .print value => do
    let a ← Plan.expr 0 depth env value
    let _ ← Plan.lift (emit (.printed a.text))
    return .normal
  | .var name none => do
    let _ ← Plan.lift (declareVariable settings env name .nil)
    return .normal
  | .var name (some value) => do
    let a ← Plan.expr 0 depth env value
    let _ ← Plan.lift (declareVariable settings env name a)
    return .normal
  | .block body => do
    let inner ← Plan.lift (newEnv env ∅)
    Plan.stmts 0 depth inner body
  | .ifStmt condition thenBranch elifs elseBranch => do
    let a ← Plan.expr 0 depth env condition
    let _ ← Plan.note settings 3 (conditionNote "if" a)
    if a.isTruthy then Plan.stmt 1 depth env thenBranch
    else Plan.elifs 2 depth env elifs elseBranch
  | .whileStmt condition body => Plan.loop 0 depth env condition body
  | .functionDecl f => do
    let _ ← Plan.lift (declareFunction settings env f)
    return .normal
  | .returnStmt _ none => return .returned .nil
  | .returnStmt _ (some value) => do
    let a ← Plan.expr 0 depth env value
    return .returned a
  | .breakStmt _ => return .broke
  | .classDecl name superclass methods => do
    let _ ← Plan.lift (declareClass settings env name superclass methods)
    return .normal

namespace Plan

/-- One level of the evaluation of arguments. -/
def ofExprs (depth : Nat) (env : EnvId) : List (Expr Binding) → Plan (List Value)
  | [] => return []
  | e :: rest => do
    let a ← expr 0 depth env e
    return a :: (← exprs 1 depth env rest)

/-- One level of the execution of statements in sequence. -/
def ofStmts (depth : Nat) (env : EnvId) : List (Stmt Binding) → Plan Completion
  | [] => return .normal
  | s :: rest => do
    match ← stmt 0 depth env s with
    | .normal => stmts 1 depth env rest
    | completion => return completion

/-- One level of the execution of the branches of a choice. -/
def ofElifs (depth : Nat) (env : EnvId) : List (Elif Binding) → Option (Stmt Binding) →
    Plan Completion
  | [], none => return .normal
  | [], some s => stmt 0 depth env s
  | .mk condition body :: rest, elseBranch => do
    let a ← expr 0 depth env condition
    if a.isTruthy then stmt 1 depth env body
    else elifs 2 depth env rest elseBranch

/-- One level of the execution of a loop. -/
def ofLoop (settings : Settings) (depth : Nat) (env : EnvId) (condition : Expr Binding)
    (body : Stmt Binding) : Plan Completion := do
  let a ← expr 0 depth env condition
  let _ ← note settings 3 (conditionNote "while" a)
  if !a.isTruthy then return .normal
  else
    match ← stmt 1 depth env body with
    | .normal => loop 2 depth env condition body
    | .broke => return .normal
    | .returned value => return .returned value

/-- One level of a call that was checked. -/
def ofCall (settings : Settings) (depth : Nat) : Value → List Value → Plan Value
  | .function _ code, values => closure 0 depth code values
  | .classRef definition, values => do
    let id ← lift newObject
    match definition.findMethod? initializerName with
    | none => return .object id definition
    | some method =>
      let code ← lift (bindMethod method (.object id definition))
      let _ ← closure 0 depth code values
      return .object id definition
  | .native _ .clock, _ => lift (readClock settings)
  | _, _ => return .nil

/-- One level of the execution of the code of a function. -/
def ofClosure (depth : Nat) (code : Closure) (values : List Value) : Plan Value := do
  let env ← lift (newEnv code.scope (argumentSlots code.parameters values ∅))
  let completion ← stmts 0 depth env code.body
  lift (callValue code completion)

end Plan

/-- One level of an evaluation. -/
def Code.plan (settings : Settings) (depth : Nat) : (code : Code) → Plan code.Result
  | .node env (.expr e) => e.plan settings depth env
  | .node env (.exprs es) => Plan.ofExprs depth env es
  | .node env (.stmt s) => s.plan settings depth env
  | .node env (.stmts body) => Plan.ofStmts depth env body
  | .node env (.elifs branches elseBranch) => Plan.ofElifs depth env branches elseBranch
  | .node env (.loop condition body) => Plan.ofLoop settings depth env condition body
  | .invoke callee values => Plan.ofCall settings depth callee values
  | .closure code values => Plan.ofClosure depth code values

/-! ## Following a plan -/

namespace Plan

variable {α β : Type} {child : (depth : Nat) → (code : Code) → Run code.Result}

/-- A plan in sequence is followed in sequence. -/
theorem follow_bind (p : Plan α) (f : α → Plan β) :
    follow child (p >>= f) = follow child p >>= fun a => follow child (f a) := by
  induction p with
  | finish a => rfl
  | act step next ih =>
    show (step >>= fun b => follow child (next b >>= f)) = _
    simp only [ih, follow, bind_assoc]
  | call part depth code next ih =>
    show (child depth code >>= fun a => follow child (next a >>= f)) = _
    simp only [ih, follow, bind_assoc]

@[simp] theorem follow_pure (a : α) : follow child (pure a : Plan α) = pure a := rfl

@[simp] theorem follow_lift (step : Run α) : follow child (lift step) = step := bind_pure step

/-- The visit of a code is its evaluation. -/
theorem follow_visit (part depth : Nat) (code : Code) :
    follow child (call part depth code finish) = child depth code :=
  bind_pure _

@[simp] theorem follow_note (settings : Settings) (level : Nat) (line : String) :
    follow child (note settings level line) =
      if level ≤ settings.verbosity then emit (.noted line) else pure () :=
  follow_lift _

theorem follow_ite (c : Prop) [Decidable c] (p q : Plan α) :
    follow child (if c then p else q) = if c then follow child p else follow child q := by
  split <;> rfl

section

variable (settings : Settings) (fuel part depth : Nat) (env : EnvId)

@[simp] theorem follow_expr (e : Expr Binding) :
    (expr part depth env e).follow (Code.run settings fuel) =
      evaluate settings fuel depth env e :=
  follow_visit ..

@[simp] theorem follow_exprs (es : List (Expr Binding)) :
    (exprs part depth env es).follow (Code.run settings fuel) =
      evaluateAll settings fuel depth env es :=
  follow_visit ..

@[simp] theorem follow_stmt (s : Stmt Binding) :
    (stmt part depth env s).follow (Code.run settings fuel) =
      execute settings fuel depth env s :=
  follow_visit ..

@[simp] theorem follow_stmts (body : List (Stmt Binding)) :
    (stmts part depth env body).follow (Code.run settings fuel) =
      executeAll settings fuel depth env body :=
  follow_visit ..

@[simp] theorem follow_elifs (branches : List (Elif Binding))
    (elseBranch : Option (Stmt Binding)) :
    (elifs part depth env branches elseBranch).follow (Code.run settings fuel) =
      executeElifs settings fuel depth env branches elseBranch :=
  follow_visit ..

@[simp] theorem follow_loop (condition : Expr Binding) (body : Stmt Binding) :
    (loop part depth env condition body).follow (Code.run settings fuel) =
      executeLoop settings fuel depth env condition body :=
  follow_visit ..

@[simp] theorem follow_invoke (callee : Value) (values : List Value) :
    (invoke part depth callee values).follow (Code.run settings fuel) =
      Run.invoke settings fuel depth callee values :=
  follow_visit ..

@[simp] theorem follow_closure (code : Closure) (values : List Value) :
    (closure part depth code values).follow (Code.run settings fuel) =
      runCode settings fuel depth code values :=
  follow_visit ..

end

end Plan

/-- A note in front of a run is a note in front of each of its cases. -/
theorem Run.note_bind {α : Type} (settings : Settings) (level : Nat) (line : String)
    (x : Run α) :
    ((if level ≤ settings.verbosity then emit (.noted line) else pure ()) >>= fun _ => x) =
      if level ≤ settings.verbosity then emit (.noted line) >>= fun _ => x else x := by
  split <;> simp

variable (settings : Settings) (fuel depth : Nat) (env : EnvId)

/-- Following the plan of an expression is evaluating it. -/
theorem Expr.follow_plan (e : Expr Binding) :
    (e.plan settings depth env).follow (Code.run settings fuel) =
      evaluate settings (fuel + 1) depth env e := by
  cases e <;> simp only [Run.evaluate, Expr.plan, Plan.follow_bind, Plan.follow_ite,
    Plan.follow_pure, Plan.follow_lift, Plan.follow_expr, Plan.follow_exprs, Plan.follow_invoke]
  case get object property =>
    congr 1; funext a
    cases a <;> simp
  case set object field value =>
    congr 1; funext a
    cases a <;> simp [Plan.follow_bind]

/-- Following the plan of a statement is executing it. -/
theorem Stmt.follow_plan (s : Stmt Binding) :
    (s.plan settings depth env).follow (Code.run settings fuel) =
      execute settings (fuel + 1) depth env s := by
  fun_cases Stmt.plan settings depth env s <;>
    simp only [Run.execute, Plan.follow_bind, Plan.follow_ite, Run.note_bind, Plan.follow_pure,
      Plan.follow_lift, Plan.follow_note, Plan.follow_expr, Plan.follow_stmt, Plan.follow_stmts,
      Plan.follow_elifs, Plan.follow_loop]

namespace Plan

/-- Following the plan of a list of expressions is evaluating them in order. -/
theorem follow_ofExprs (es : List (Expr Binding)) :
    (ofExprs depth env es).follow (Code.run settings fuel) =
      evaluateAll settings (fuel + 1) depth env es := by
  cases es <;> simp [Run.evaluateAll, ofExprs, follow_bind]

/-- Following the plan of a list of statements is executing them in order. -/
theorem follow_ofStmts (body : List (Stmt Binding)) :
    (ofStmts depth env body).follow (Code.run settings fuel) =
      executeAll settings (fuel + 1) depth env body := by
  cases body with
  | nil => simp [Run.executeAll, ofStmts]
  | cons s rest =>
    simp only [Run.executeAll, ofStmts, follow_bind, follow_stmt]
    congr 1; funext completion
    cases completion <;> simp

/-- Following the plan of a choice is trying its branches. -/
theorem follow_ofElifs (branches : List (Elif Binding)) (elseBranch : Option (Stmt Binding)) :
    (ofElifs depth env branches elseBranch).follow (Code.run settings fuel) =
      executeElifs settings (fuel + 1) depth env branches elseBranch := by
  fun_cases ofElifs depth env branches elseBranch <;>
    simp [Run.executeElifs, follow_bind, follow_ite]

/-- Following the plan of a loop is executing a round and the rounds behind it. -/
theorem follow_ofLoop (condition : Expr Binding) (body : Stmt Binding) :
    (ofLoop settings depth env condition body).follow (Code.run settings fuel) =
      executeLoop settings (fuel + 1) depth env condition body := by
  have hround : ∀ completion : Completion,
      follow (Code.run settings fuel)
          (match completion with
          | .normal => loop 2 depth env condition body
          | .broke => pure .normal
          | .returned value => pure (.returned value)) =
        match completion with
        | .normal => executeLoop settings fuel depth env condition body
        | .broke => pure .normal
        | .returned value => pure (.returned value) := by
    intro completion
    cases completion <;> simp
  simp only [Run.executeLoop, ofLoop, follow_bind, follow_expr, follow_note, Run.note_bind,
    follow_ite, follow_pure, follow_stmt]
  refine bind_congr fun a => ?_
  split
  · exact bind_congr fun _ => ite_congr rfl (fun _ => rfl) fun _ => bind_congr hround
  · exact ite_congr rfl (fun _ => rfl) fun _ => bind_congr hround

/-- Following the plan of a call is making it. -/
theorem follow_ofCall (callee : Value) (values : List Value) :
    (ofCall settings depth callee values).follow (Code.run settings fuel) =
      Run.invoke settings (fuel + 1) depth callee values := by
  fun_cases ofCall settings depth callee values
  case case2 definition =>
    simp only [Run.invoke, follow_bind, follow_lift]
    congr 1; funext id
    cases definition.findMethod? initializerName <;> simp [follow_bind]
  all_goals simp [Run.invoke]

/-- Following the plan of a function is running its code. -/
theorem follow_ofClosure (code : Closure) (values : List Value) :
    (ofClosure depth code values).follow (Code.run settings fuel) =
      runCode settings (fuel + 1) depth code values := by
  simp [Run.runCode, ofClosure, follow_bind]

end Plan

/-- Following the plan of a code is its evaluation. -/
theorem Code.run_succ (code : Code) :
    code.run settings (fuel + 1) depth =
      (code.plan settings depth).follow (Code.run settings fuel) := by
  cases code with
  | node env n =>
    cases n with
    | expr e => exact (e.follow_plan settings fuel depth env).symm
    | exprs es => exact (Plan.follow_ofExprs settings fuel depth env es).symm
    | stmt s => exact (s.follow_plan settings fuel depth env).symm
    | stmts body => exact (Plan.follow_ofStmts settings fuel depth env body).symm
    | elifs branches elseBranch =>
      exact (Plan.follow_ofElifs settings fuel depth env branches elseBranch).symm
    | loop condition body =>
      exact (Plan.follow_ofLoop settings fuel depth env condition body).symm
  | invoke callee values => exact (Plan.follow_ofCall settings fuel depth callee values).symm
  | closure code values => exact (Plan.follow_ofClosure settings fuel depth code values).symm

end ClassScript
