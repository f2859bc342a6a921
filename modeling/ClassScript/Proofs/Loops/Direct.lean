import ClassScript.Proofs.Evaluation.Plan
import ClassScript.Proofs.Syntax.Legal
import ClassScript.Session

/-!
# Loops that keep their increments

`Stmt.forLoop` writes a loop with clauses out.  Its increment follows the body in a block,
which is a scope of its own and gets a new environment in every round.  Here are trees that
keep the increment of a loop apart (`Stmt.forStmt`), with a semantics that knows no such
scope: a *round* of a loop, the body and then the increment, is resolved in the scope of
the loop and runs in its environment.  `Stmt.expand` writes the loops of a tree out.

The body of a loop declares nothing.  So a declaration in that place is free to stand for a
round, and no text reads as a tree with rounds.
-/

namespace ClassScript

/-! ## Trees with rounds -/

section

variable {β : Type}

/-- A round of a loop: its body and then its increment. -/
def Stmt.round (body : Stmt β) (step : Expr β) : Stmt β :=
  .functionDecl (.mk ⟨"for", 0⟩ [] [body, .expression step])

/-- Whether what a loop repeats is a round.  The body of a round declares nothing. -/
def Stmt.isRound : Stmt β → Bool
  | .functionDecl (.mk _ [] [body, .expression _]) => body.declared.isNone
  | _ => false

/-- What a loop repeats besides its condition. -/
def Stmt.repeated (increment : Option (Expr β)) (body : Stmt β) : Stmt β :=
  match increment with
  | none => body
  | some step => .round body step

/-- The `for` loop with its increment kept apart. -/
def Stmt.forStmt (initializer : Option (Stmt β)) (condition increment : Option (Expr β))
    (body : Stmt β) : Stmt β :=
  let loop := .whileStmt (condition.getD (.literal (.boolean true))) (.repeated increment body)
  match initializer with
  | none => loop
  | some start => .block [start, loop]

theorem Stmt.isRound_round {body : Stmt β} (h : body.declared = none) (step : Expr β) :
    (round body step).isRound = true := by
  rw [round, isRound, h]
  rfl

/-- What declares nothing is no round. -/
theorem Stmt.isRound_of_declared {s : Stmt β} (h : s.declared = none) : s.isRound = false := by
  cases s with
  | functionDecl f => cases h
  | _ => rfl

theorem Stmt.eq_of_isRound {s : Stmt β} (h : s.isRound = true) :
    ∃ name body step, s = .functionDecl (.mk name [] [body, .expression step]) ∧
      body.declared = none := by
  unfold isRound at h
  split at h
  · exact ⟨_, _, _, rfl, Option.isNone_iff_eq_none.mp h⟩
  · cases h

end

/-! ## Writing loops out -/

section

variable {β : Type}

mutual

/-- The expression with the rounds of its loops written as blocks. -/
def Expr.expand : Expr β → Expr β
  | .literal value => .literal value
  | .grouping inner => .grouping inner.expand
  | .unary op line operand => .unary op line operand.expand
  | .binary left op line right => .binary left.expand op line right.expand
  | .logical left op line right => .logical left.expand op line right.expand
  | .variable target => .variable target
  | .assign target value => .assign target value.expand
  | .call callee line arguments => .call callee.expand line (expandExprs arguments)
  | .get object property => .get object.expand property
  | .set object field value => .set object.expand field value.expand
  | .this line binding => .this line binding
  | .super line method binding => .super line method binding
  | .lambda line parameters body => .lambda line parameters (expandStmts body)

/-- The expressions with the rounds of their loops written as blocks. -/
def expandExprs : List (Expr β) → List (Expr β)
  | [] => []
  | e :: rest => e.expand :: expandExprs rest

/-- The statement with the rounds of its loops written as blocks, or the block of a round. -/
def Stmt.expandAs (isRound : Bool) : Stmt β → Stmt β
  | .expression value => .expression value.expand
  | .print value => .print value.expand
  | .var name none => .var name none
  | .var name (some value) => .var name (some value.expand)
  | .block body => .block (expandStmts body)
  | .ifStmt condition thenBranch elifs none =>
      .ifStmt condition.expand (thenBranch.expandAs false) (expandElifs elifs) none
  | .ifStmt condition thenBranch elifs (some last) =>
      .ifStmt condition.expand (thenBranch.expandAs false) (expandElifs elifs)
        (some (last.expandAs false))
  | .whileStmt condition body => .whileStmt condition.expand (body.expandAs body.isRound)
  | .functionDecl f => if isRound then .block f.expand.body else .functionDecl f.expand
  | .returnStmt line none => .returnStmt line none
  | .returnStmt line (some value) => .returnStmt line (some value.expand)
  | .breakStmt line => .breakStmt line
  | .classDecl name superclass methods => .classDecl name superclass (expandFunctions methods)

/-- The statements with the rounds of their loops written as blocks. -/
def expandStmts : List (Stmt β) → List (Stmt β)
  | [] => []
  | s :: rest => s.expandAs false :: expandStmts rest

/-- The branches of a choice with the rounds of their loops written as blocks. -/
def expandElifs : List (Elif β) → List (Elif β)
  | [] => []
  | .mk condition body :: rest => .mk condition.expand (body.expandAs false) :: expandElifs rest

/-- The function with the rounds of its loops written as blocks. -/
def Function.expand : Function β → Function β
  | .mk name parameters body => .mk name parameters (expandStmts body)

/-- The methods with the rounds of their loops written as blocks. -/
def expandFunctions : List (Function β) → List (Function β)
  | [] => []
  | f :: rest => f.expand :: expandFunctions rest

end

/-- The statement with the rounds of its loops written as blocks. -/
abbrev Stmt.expand (s : Stmt β) : Stmt β := s.expandAs false

/-- A loop that keeps its increment apart is written out as the grammar writes it. -/
theorem Stmt.expand_forStmt (initializer : Option (Stmt β)) (condition increment : Option (Expr β))
    {body : Stmt β} (h : body.declared = none) :
    (forStmt initializer condition increment body).expand =
      forLoop (initializer.map expand) (condition.map Expr.expand) (increment.map Expr.expand)
        body.expand := by
  have hcondition : (condition.getD (.literal (.boolean true))).expand =
      (condition.map Expr.expand).getD (.literal (.boolean true)) := by
    cases condition <;> rfl
  have hround (step : Expr β) : (round body step).expandAs (round body step).isRound =
      .block [body.expand, .expression step.expand] := by
    rw [isRound_round h]
    rfl
  cases initializer <;> cases increment <;>
    simp only [forStmt, forLoop, repeated, Stmt.expandAs, expandStmts, hcondition, hround,
      isRound_of_declared h, Option.map_none, Option.map_some]

mutual

/-- A legal tree has no rounds. -/
theorem Expr.expand_of_legal : ∀ {e : Expr β}, e.Legal → e.expand = e
  | .literal _, _ => rfl
  | .grouping _, h => congrArg Expr.grouping (Expr.expand_of_legal h)
  | .unary op line _, h => congrArg (Expr.unary op line) (Expr.expand_of_legal h)
  | .binary _ _ _ _, h => by rw [Expr.expand, Expr.expand_of_legal h.1, Expr.expand_of_legal h.2]
  | .logical _ _ _ _, h => by rw [Expr.expand, Expr.expand_of_legal h.1, Expr.expand_of_legal h.2]
  | .variable _, _ => rfl
  | .assign _ _, h => congrArg _ (Expr.expand_of_legal h.2)
  | .call _ _ _, h => by rw [Expr.expand, Expr.expand_of_legal h.1, expandExprs_of_legal h.2]
  | .get _ property, h => congrArg (Expr.get · property) (Expr.expand_of_legal h)
  | .set _ _ _, h => by rw [Expr.expand, Expr.expand_of_legal h.1, Expr.expand_of_legal h.2]
  | .this _ _, _ => rfl
  | .super _ _ _, _ => rfl
  | .lambda _ _ _, h => congrArg _ (expandStmts_of_legal h.2)

theorem expandExprs_of_legal : ∀ {es : List (Expr β)}, legalExprs es → expandExprs es = es
  | [], _ => rfl
  | _ :: _, h => by rw [expandExprs, Expr.expand_of_legal h.1, expandExprs_of_legal h.2]

theorem Stmt.expandAs_of_legal : ∀ {s : Stmt β}, s.Legal → s.expandAs false = s
  | .expression _, h => congrArg _ (Expr.expand_of_legal h)
  | .print _, h => congrArg _ (Expr.expand_of_legal h)
  | .var _ none, _ => rfl
  | .var _ (some _), h => by rw [Stmt.expandAs, Expr.expand_of_legal h.2]
  | .block _, h => congrArg _ (expandStmts_of_legal h)
  | .ifStmt _ _ _ none, h => by
      rw [Stmt.expandAs, Expr.expand_of_legal h.1, Stmt.expandAs_of_legal h.2.1.1,
        expandElifs_of_legal h.2.2.1]
  | .ifStmt _ _ _ (some _), h => by
      rw [Stmt.expandAs, Expr.expand_of_legal h.1, Stmt.expandAs_of_legal h.2.1.1,
        expandElifs_of_legal h.2.2.1, Stmt.expandAs_of_legal h.2.2.2.1]
  | .whileStmt _ _, h => by
      rw [Stmt.expandAs, Expr.expand_of_legal h.1, Stmt.isRound_of_declared h.2.2,
        Stmt.expandAs_of_legal h.2.1]
  | .functionDecl _, h => congrArg _ (Function.expand_of_legal h)
  | .returnStmt _ none, _ => rfl
  | .returnStmt _ (some _), h => by rw [Stmt.expandAs, Expr.expand_of_legal h]
  | .breakStmt _, _ => rfl
  | .classDecl _ _ _, h => congrArg _ (expandFunctions_of_legal h.2)

theorem expandStmts_of_legal : ∀ {body : List (Stmt β)}, legalStmts body → expandStmts body = body
  | [], _ => rfl
  | _ :: _, h => by rw [expandStmts, Stmt.expandAs_of_legal h.1, expandStmts_of_legal h.2]

theorem expandElifs_of_legal : ∀ {branches : List (Elif β)}, legalElifs branches →
    expandElifs branches = branches
  | [], _ => rfl
  | .mk _ _ :: _, h => by
      rw [expandElifs, Expr.expand_of_legal h.1.1, Stmt.expandAs_of_legal h.1.2.1,
        expandElifs_of_legal h.2]

theorem Function.expand_of_legal : ∀ {f : Function β}, f.Legal → f.expand = f
  | .mk _ _ _, h => congrArg _ (expandStmts_of_legal h.2.2)

theorem expandFunctions_of_legal : ∀ {fs : List (Function β)}, legalFunctions fs →
    expandFunctions fs = fs
  | [], _ => rfl
  | _ :: _, h => by
      rw [expandFunctions, Function.expand_of_legal h.1, expandFunctions_of_legal h.2]

end

end

/-! ## Resolution -/

namespace Resolution.Direct

mutual

/-- An expression with its bindings. -/
def resolveExpr (context : Context) : Expr Unit → Walk (Expr Binding)
  | .literal value => return .literal value
  | .grouping inner => return .grouping (← resolveExpr context inner)
  | .unary op line operand => return .unary op line (← resolveExpr context operand)
  | .binary left op line right => do
    let left ← resolveExpr context left
    return .binary left op line (← resolveExpr context right)
  | .logical left op line right => do
    let left ← resolveExpr context left
    return .logical left op line (← resolveExpr context right)
  | .variable target => return .variable (← readVariable target.name)
  | .assign target value => do
    let value ← resolveExpr context value
    return .assign (← writeVariable target.name) value
  | .call callee line arguments => do
    let callee ← resolveExpr context callee
    return .call callee line (← resolveExprs context arguments)
  | .get object property => return .get (← resolveExpr context object) property
  | .set object field value => do
    let value ← resolveExpr context value
    return .set (← resolveExpr context object) field value
  | .this line _ => return .this line (← readThis context line)
  | .super line method _ => return .super line method (← readSuper context line)
  | .lambda line parameters body => do
    let body ← inScope ∅ do
      introduceAll parameters
      resolveStmts { context with function := .function } body
    return .lambda line parameters body

/-- Expressions with their bindings. -/
def resolveExprs (context : Context) : List (Expr Unit) → Walk (List (Expr Binding))
  | [] => return []
  | e :: rest => do
    let e ← resolveExpr context e
    return e :: (← resolveExprs context rest)

/-- A statement with its bindings, or a round.  A round is no declaration, and it is
resolved in the scope at hand. -/
def resolveStmt (context : Context) (isRound : Bool) : Stmt Unit → Walk (Stmt Binding)
  | .expression value => return .expression (← resolveExpr context value)
  | .print value => return .print (← resolveExpr context value)
  | .var name none => do
    introduce name
    return .var name none
  | .var name (some value) => do
    declare name
    let value ← resolveExpr context value
    define name
    return .var name (some value)
  | .block body => return .block (← inScope ∅ (resolveStmts context body))
  | .ifStmt condition thenBranch elifs elseBranch => do
    let condition ← resolveExpr context condition
    let thenBranch ← resolveStmt context false thenBranch
    let elifs ← resolveElifs context elifs
    match elseBranch with
    | none => return .ifStmt condition thenBranch elifs none
    | some stmt =>
      return .ifStmt condition thenBranch elifs (some (← resolveStmt context false stmt))
  | .whileStmt condition body => do
    let condition ← resolveExpr context condition
    return .whileStmt condition (← resolveStmt context body.isRound body)
  | .functionDecl f =>
    if isRound then return .functionDecl (← resolveRound context f)
    else do
      introduce f.name
      return .functionDecl (← resolveFunction context .function f)
  | .returnStmt line none => do
    checkReturn context line false
    return .returnStmt line none
  | .returnStmt line (some value) => do
    checkReturn context line true
    return .returnStmt line (some (← resolveExpr context value))
  | .breakStmt line => return .breakStmt line
  | .classDecl name superclass methods => do
    introduce name
    let superclass ← resolveSuperclass name superclass
    let context :=
      { context with enclosingClass := if superclass.isSome then .derived else .plain }
    let methods ← inClass superclass.isSome (resolveMethods context methods)
    return .classDecl name superclass methods

/-- Statements with their bindings. -/
def resolveStmts (context : Context) : List (Stmt Unit) → Walk (List (Stmt Binding))
  | [] => return []
  | s :: rest => do
    let s ← resolveStmt context false s
    return s :: (← resolveStmts context rest)

/-- Branches of a choice with their bindings. -/
def resolveElifs (context : Context) : List (Elif Unit) → Walk (List (Elif Binding))
  | [] => return []
  | .mk condition body :: rest => do
    let condition ← resolveExpr context condition
    let body ← resolveStmt context false body
    return .mk condition body :: (← resolveElifs context rest)

/-- The body and the increment of a round with their bindings. -/
def resolveRound (context : Context) : Function Unit → Walk (Function Binding)
  | .mk name parameters body => return .mk name parameters (← resolveStmts context body)

/-- A function with its bindings.  Its parameters and its body share a scope. -/
def resolveFunction (context : Context) (kind : FunctionContext) :
    Function Unit → Walk (Function Binding)
  | .mk name parameters body => do
    let body ← inScope ∅ do
      introduceAll parameters
      resolveStmts { context with function := kind } body
    return .mk name parameters body

/-- Methods with their bindings. -/
def resolveMethods (context : Context) : List (Function Unit) → Walk (List (Function Binding))
  | [] => return []
  | f :: rest => do
    let f ← resolveFunction context (methodContext f.name) f
    return f :: (← resolveMethods context rest)

end

end Resolution.Direct

/-- The program with every reference bound, without scopes for rounds. -/
def Resolution.directly (program : Program Unit) : Resolution :=
  let (program, s) :=
    (Resolution.Direct.resolveStmts ⟨.topLevel, .none⟩ program).run ⟨[], [], #[]⟩
  ⟨program, s.diagnostics, s.references⟩

/-! ## Evaluation -/

/-- Whether a code is the round of a loop that calls it. -/
def Code.roundOf : Code → Code → Bool
  | .node _ (.loop _ _), .node _ (.stmt s) => s.isRound
  | _, _ => false

/-- The evaluation of a code in which a loop runs its rounds in its own environment. -/
def Code.runDirect (settings : Settings) :
    (fuel depth : Nat) → (isRound : Bool) → (code : Code) → Run code.Result
  | 0, _, _, _ => throw .outOfFuel
  | fuel + 1, depth, true, .node env (.stmt (.functionDecl f)) =>
    runDirect settings fuel depth false (.node env (.stmts f.body))
  | fuel + 1, depth, _, code =>
    (code.plan settings depth).follow fun depth child =>
      runDirect settings fuel depth (code.roundOf child) child

/-- Runs the statements of a program among the globals, rounds in the environments of their
loops. -/
def Run.programDirect (settings : Settings) (fuel : Nat) : Program Binding → Run Unit
  | [] => pure ()
  | s :: rest => do
    let _ ← Code.runDirect settings fuel 0 false (.node .globals (.stmt s))
    programDirect settings fuel rest

end ClassScript
