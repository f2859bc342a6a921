import ClassScript.Proofs.Loops.Evaluation

/-!
# Loops with clauses, run directly

What it means to resolve and to run a loop that keeps its increment apart
(`Stmt.forStmt`), written out.  All clauses and the body are resolved in one scope
(`Resolution.Direct.resolveFor`), and all rounds run in one environment: it is made for the
initializer, or it is the one at hand (`Run.forLoop`).

These are not definitions of their own.  `Resolution.Direct.resolveStmt_forStmt` and
`Code.runDirect_forStmt` say that the general semantics does just this.
-/

namespace ClassScript

open Run

/-! ## Resolution -/

namespace Resolution.Direct

variable (context : Context)

/-- The clauses of a loop and its body, in the order of the text but for the increment, which
comes last. -/
def resolveClauses (initializer : Option (Stmt Binding)) (condition : Option (Expr Unit))
    (increment : Option (Expr Unit)) (body : Stmt Unit) : Walk (Stmt Binding) := do
  let condition ← resolveExpr context (condition.getD (.literal (.boolean true)))
  let body ← resolveStmt context false body
  match increment with
  | none => return .forStmt initializer (some condition) none body
  | some step => do
    let step ← resolveExpr context step
    return .forStmt initializer (some condition) (some step) body

/-- A loop with clauses.  The scope of its initializer is that of everything in it. -/
def resolveFor (initializer : Option (Stmt Unit)) (condition increment : Option (Expr Unit))
    (body : Stmt Unit) : Walk (Stmt Binding) :=
  match initializer with
  | none => resolveClauses context none condition increment body
  | some start => inScope ∅ do
    let start ← resolveStmt context false start
    resolveClauses context (some start) condition increment body

theorem resolveStmt_forStmt (initializer : Option (Stmt Unit))
    (condition increment : Option (Expr Unit)) {body : Stmt Unit} (h : body.declared = none) :
    resolveStmt context false (.forStmt initializer condition increment body) =
      resolveFor context initializer condition increment body := by
  cases initializer <;> cases increment
  · simp only [Stmt.forStmt, Stmt.repeated, resolveStmt, Stmt.isRound_of_declared h]
    rfl
  · simp only [Stmt.forStmt, Stmt.repeated, resolveStmt, Stmt.isRound_round h]
    rfl
  · simp only [Stmt.forStmt, Stmt.repeated, resolveStmt, resolveStmts, Stmt.isRound_of_declared h]
    rfl
  · simp only [Stmt.forStmt, Stmt.repeated, resolveStmt, resolveStmts, Stmt.isRound_round h]
    rfl

end Resolution.Direct

/-! ## Evaluation -/

/-- One piece of a program and then another one, if the first one completes normally. -/
def Run.andThen (x y : Run Completion) : Run Completion := do
  match ← x with
  | .normal => y
  | completion => return completion

/-- What a loop does after its body: a `break` ends it, and a `return` is passed on. -/
def Run.again (next : Run Completion) : Completion → Run Completion
  | .normal => next
  | .broke => return .normal
  | .returned value => return .returned value

theorem Run.andThen_normal (x : Run Completion) : andThen x (pure .normal) = x := by
  unfold andThen
  refine .trans (congrArg (x >>= ·) (funext fun completion => ?_)) (bind_pure x)
  cases completion <;> rfl

/-- The increment is a part of the round that is skipped by all but a normal completion. -/
theorem Run.andThen_bind_again {α : Type} (x : Run Completion) (y : Run α) (next : Run Completion) :
    (andThen x (y >>= fun _ => pure .normal) >>= fun completion => again next completion) =
      x >>= fun completion => again (y >>= fun _ => next) completion := by
  unfold andThen
  rw [bind_assoc]
  refine congrArg (x >>= ·) (funext fun completion => ?_)
  cases completion with
  | normal => simp only [again, bind_assoc, pure_bind]
  | _ => rfl

section

variable (settings : Settings) (depth : Nat) (env : EnvId)

/-- The rounds of a loop, all in one environment.  Before each one the condition is evaluated,
and the loop is over when it is falsy.  An absent one is true.  After the body comes the
increment, if there is one and the loop goes on.

The fuel says how deep the nesting of the evaluation may be.  A loop with an increment has its
body and its increment further in. -/
def Run.rounds (condition increment : Option (Expr Binding)) (body : Stmt Binding) :
    (fuel : Nat) → Run Completion
  | 0 => throw .outOfFuel
  | fuel + 1 => do
    let condition' := condition.getD (.literal (.boolean true))
    let a ← Code.runDirect settings fuel depth false (.node env (.expr condition'))
    if 3 ≤ settings.verbosity then emit (.noted (conditionNote "while" a))
    if !a.isTruthy then return .normal
    match increment with
    | none => do
      let completion ← Code.runDirect settings fuel depth false (.node env (.stmt body))
      again (rounds condition increment body fuel) completion
    | some step => do
      let completion ← Code.runDirect settings (fuel - 2) depth false (.node env (.stmt body))
      again (do
        let _ ← Code.runDirect settings (fuel - 4) depth false (.node env (.expr step))
        rounds condition increment body fuel) completion

/-- A loop with clauses.  An initializer runs once, in an environment that is made for it and
is that of all rounds. -/
def Run.forLoop (initializer : Option (Stmt Binding)) (condition increment : Option (Expr Binding))
    (body : Stmt Binding) (fuel : Nat) : Run Completion :=
  match initializer with
  | none => rounds settings depth env condition increment body fuel
  | some start => do
    let inner ← newEnv env ∅
    andThen (Code.runDirect settings (fuel - 1) depth false (.node inner (.stmt start)))
      (rounds settings depth inner condition increment body (fuel - 3))

variable (fuel : Nat)

theorem Code.runDirect_expression (e : Expr Binding) :
    (Code.node env (.stmt (.expression e))).runDirect settings (fuel + 1) depth false = (do
      let _ ← Code.runDirect settings fuel depth false (.node env (.expr e))
      return .normal) := by
  rw [runDirect_succ]
  exact (Plan.follow_bind ..).trans (congrArg (· >>= _) (Plan.follow_visit ..))

theorem Code.runDirect_stmts_cons (s : Stmt Binding) (rest : List (Stmt Binding)) :
    (Code.node env (.stmts (s :: rest))).runDirect settings (fuel + 1) depth false =
      andThen (Code.runDirect settings fuel depth false (.node env (.stmt s)))
        (Code.runDirect settings fuel depth false (.node env (.stmts rest))) := by
  rw [runDirect_succ]
  refine (Plan.follow_bind ..).trans ?_
  rw [Plan.stmt, Plan.follow_visit]
  refine congrArg (_ >>= ·) (funext fun completion => ?_)
  cases completion with
  | normal => exact Plan.follow_visit ..
  | _ => rfl

theorem Code.runDirect_stmts_nil :
    (Code.node env (.stmts [])).runDirect settings (fuel + 1) depth false =
      (pure .normal : Run Completion) :=
  runDirect_succ ..

/-- A round runs in the environment of its loop. -/
theorem Code.runDirect_round (body : Stmt Binding) (step : Expr Binding) :
    (Code.node env (.stmt (.round body step))).runDirect settings fuel depth true =
      andThen (Code.runDirect settings (fuel - 2) depth false (.node env (.stmt body))) (do
        let _ ← Code.runDirect settings (fuel - 4) depth false (.node env (.expr step))
        return .normal) := by
  match fuel with
  -- The fuel runs out before the body, or before the increment.
  | 0 | 1 => rfl
  | 2 => exact runDirect_stmts_cons ..
  | 3 =>
    refine (runDirect_stmts_cons ..).trans (congrArg (andThen _) ?_)
    exact runDirect_stmts_cons ..
  | 4 =>
    refine (runDirect_stmts_cons ..).trans (congrArg (andThen _) ?_)
    refine (runDirect_stmts_cons ..).trans ?_
    rw [runDirect_expression]
    rfl
  | n + 5 =>
    refine (runDirect_stmts_cons ..).trans (congrArg (andThen _) ?_)
    refine (runDirect_stmts_cons ..).trans ?_
    rw [runDirect_expression, runDirect_stmts_nil]
    simp only [andThen, bind_assoc, pure_bind]
    rfl

/-- One round of a loop, whatever it repeats. -/
theorem Code.runDirect_loop_succ (condition : Expr Binding) (body : Stmt Binding) :
    (Code.node env (.loop condition body)).runDirect settings (fuel + 1) depth false = (do
      let a ← Code.runDirect settings fuel depth false (.node env (.expr condition))
      if 3 ≤ settings.verbosity then emit (.noted (conditionNote "while" a))
      if !a.isTruthy then return .normal
      let completion ← Code.runDirect settings fuel depth body.isRound (.node env (.stmt body))
      again (Code.runDirect settings fuel depth false (.node env (.loop condition body)))
        completion) := by
  rw [runDirect_succ]
  refine (Plan.follow_bind ..).trans ?_
  rw [Plan.expr, Plan.follow_visit]
  refine congrArg (_ >>= ·) (funext fun a => ?_)
  have hround : Plan.follow (fun depth child => child.runDirect settings fuel depth
      ((Code.node env (.loop condition body)).roundOf child))
      (do
        match ← Plan.stmt 1 depth env body with
        | .normal => Plan.loop 2 depth env condition body
        | .broke => pure .normal
        | .returned value => pure (.returned value)) = (do
      let completion ← Code.runDirect settings fuel depth body.isRound (.node env (.stmt body))
      again (Code.runDirect settings fuel depth false (.node env (.loop condition body)))
        completion) := by
    refine (Plan.follow_bind ..).trans ?_
    rw [Plan.stmt, Plan.follow_visit]
    refine congrArg (_ >>= ·) (funext fun completion => ?_)
    cases completion with
    | normal => exact Plan.follow_visit ..
    | _ => rfl
  refine (Plan.follow_bind ..).trans ?_
  rw [Plan.follow_note, note_bind, Plan.follow_ite]
  split
  · exact congrArg (_ >>= ·) (funext fun _ => ite_congr rfl (fun _ => rfl) fun _ => hround)
  · exact ite_congr rfl (fun _ => rfl) fun _ => hround

/-- A loop that keeps its increment apart runs its rounds. -/
theorem Code.runDirect_loop (condition increment : Option (Expr Binding)) {body : Stmt Binding}
    (h : body.declared = none) :
    (Code.node env (.loop (condition.getD (.literal (.boolean true)))
        (.repeated increment body))).runDirect settings fuel depth false =
      rounds settings depth env condition increment body fuel := by
  induction fuel with
  | zero => rfl
  | succ fuel ih =>
    rw [runDirect_loop_succ, ih]
    cases increment with
    | none =>
      rw [Stmt.repeated, Stmt.isRound_of_declared h]
      rfl
    | some step =>
      rw [Stmt.repeated, Stmt.isRound_round h, runDirect_round]
      simp only [andThen_bind_again]
      rfl

/-- A loop with clauses opens one scope, if it has an initializer, and runs its rounds in it. -/
theorem Code.runDirect_forStmt (initializer : Option (Stmt Binding))
    (condition increment : Option (Expr Binding)) {body : Stmt Binding} (h : body.declared = none) :
    (Code.node env (.stmt (.forStmt initializer condition increment body))).runDirect settings
        (fuel + 1) depth false =
      forLoop settings depth env initializer condition increment body fuel := by
  have hwhile (fuel : Nat) (env : EnvId) : (Code.node env (.stmt (.whileStmt
      (condition.getD (.literal (.boolean true))) (.repeated increment body)))).runDirect settings
        (fuel + 1) depth false = rounds settings depth env condition increment body fuel := by
    rw [runDirect_succ]
    exact (Plan.follow_visit ..).trans
      (runDirect_loop settings depth env fuel condition increment h)
  cases initializer with
  | none => exact hwhile fuel env
  | some start =>
    rw [runDirect_succ]
    refine (Plan.follow_bind ..).trans ?_
    rw [Plan.follow_lift]
    refine congrArg (_ >>= ·) (funext fun inner => ?_)
    refine (Plan.follow_visit ..).trans ?_
    match fuel with
    -- The fuel runs out before the initializer, or before the loop.
    | 0 => rfl
    | 1 => exact runDirect_stmts_cons ..
    | 2 =>
      refine (runDirect_stmts_cons ..).trans (congrArg (andThen _) ?_)
      exact runDirect_stmts_cons ..
    | n + 3 =>
      refine (runDirect_stmts_cons ..).trans (congrArg (andThen _) ?_)
      refine (runDirect_stmts_cons ..).trans ?_
      rw [runDirect_stmts_nil, andThen_normal]
      exact hwhile n inner

end

end ClassScript
