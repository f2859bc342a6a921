import ClassScript.Proofs.Evaluation.Plan

/-!
# Visits

A *visit* is an evaluation of a code together with the fuel, the number of calls
in progress and the machine that it starts with.  `Visit.Starts settings i v v'`
says that the evaluation `v` starts the evaluation `v'` directly, as its part
`i`.

Every visit belongs to a part of the code that starts it, to the body of a block,
or to a call (`Visit.Starts.calls`), and a law of steps relates the machine of a
visit to those of the visits that it starts (`StepLaw.starts`) and to the one it
ends with (`StepLaw.run`).
-/

namespace ClassScript

open Run

/-! ## Visits -/

/-- An evaluation of a code. -/
structure Visit where
  /-- The fuel. -/
  fuel : Nat
  /-- The number of calls in progress. -/
  depth : Nat
  /-- What is evaluated. -/
  code : Code
  /-- The machine at the start. -/
  machine : Machine

/-- How a visit ends. -/
def Visit.run (settings : Settings) (v : Visit) : EStateM.Result Abort Machine v.code.Result :=
  v.code.run settings v.fuel v.depth v.machine

/-- The heap with which a visit starts. -/
abbrev Visit.heap (v : Visit) : Heap := v.machine.heap

/-- The heap with which a visit ends. -/
abbrev Visit.lastHeap (settings : Settings) (v : Visit) : Heap :=
  (lastMachine (v.run settings)).heap

/-- A plan that is followed from the machine `m` on comes to a call of evaluation
on a code, as the part `i`, in the last machine. -/
inductive Plan.Meets {α : Type} (child : (depth : Nat) → (code : Code) → Run code.Result) :
    Plan α → (m : Machine) → (i depth : Nat) → Code → Machine → Prop where
  | here (i depth : Nat) (code : Code) (next : code.Result → Plan α) (m : Machine) :
      Meets child (call i depth code next) m i depth code m
  | act {β : Type} {step : Run β} {next : β → Plan α} {m m' m₁ : Machine} {b : β} {i depth : Nat}
      {code : Code} : step m = .ok b m' → Meets child (next b) m' i depth code m₁ →
      Meets child (act step next) m i depth code m₁
  | call {part n : Nat} {other : Code} {next : other.Result → Plan α} {m m' m₁ : Machine}
      {a : other.Result} {i depth : Nat} {code : Code} : child n other m = .ok a m' →
      Meets child (next a) m' i depth code m₁ →
      Meets child (call part n other next) m i depth code m₁

/-- What a plan does depends on the evaluations that it comes to. -/
theorem Plan.follow_congr {α : Type}
    {child child' : (depth : Nat) → (code : Code) → Run code.Result}
    {p : Plan α} {m : Machine}
    (hc : ∀ i depth code m', p.Meets child m i depth code m' →
      child' depth code m' = child depth code m') : p.follow child' m = p.follow child m := by
  induction p generalizing m with
  | finish a => rfl
  | act step next ih =>
    unfold follow
    rw [bind_apply, bind_apply]
    cases hs : step m with
    | error e m' => rfl
    | ok b m' => exact ih b fun i depth code m₁ hm => hc i depth code m₁ (.act hs hm)
  | call part n other next ih =>
    have hfirst := hc part n other m (.here ..)
    unfold follow
    rw [bind_apply, bind_apply, hfirst]
    cases hs : child n other m with
    | error e m' => rfl
    | ok a m' => exact ih a fun i depth code m₁ hm => hc i depth code m₁ (.call hs hm)

/-- The evaluation of `v` starts that of `v'` as its part `i`. -/
def Visit.Starts (settings : Settings) (i : Nat) (v v' : Visit) : Prop :=
  v.fuel = v'.fuel + 1 ∧
    (v.code.plan settings v.depth).Meets (Code.run settings v'.fuel) v.machine i v'.depth v'.code
      v'.machine

/-! ## What a plan consists of -/

/-- What evaluation may be called on, as the part of the given number: on a part
of the node in the same environment, on the body of a block, or on the stages of
a call. -/
inductive Code.Calls : Code → Nat → Code → Prop where
  | part {env : EnvId} {n n' : Node Binding} {i : Nat} : n.parts[i]? = some n' →
      Calls (.node env n) i (.node env n')
  | block (env inner : EnvId) (body : List (Stmt Binding)) :
      Calls (.node env (.stmt (.block body))) 0 (.node inner (.stmts body))
  | invoke (env : EnvId) (callee : Expr Binding) (line : Nat) (arguments : List (Expr Binding))
      (f : Value) (values : List Value) :
      Calls (.node env (.expr (.call callee line arguments))) 2 (.invoke f values)
  | closure (f : Value) (code : Closure) (values : List Value) :
      Calls (.invoke f values) 0 (.closure code values)
  | body (code : Closure) (values : List Value) (env : EnvId) :
      Calls (.closure code values) 0 (.node env (.stmts code.body))

namespace Plan

/-- Each step of a plan has the property `S`, and each call the property `C`. -/
def All {α : Type} (S : {β : Type} → Run β → Prop) (C : Nat → Code → Prop) : Plan α → Prop
  | finish _ => True
  | act step next => S step ∧ ∀ b, All S C (next b)
  | call i _ code next => C i code ∧ ∀ a, All S C (next a)

variable {α β : Type} {S : {β : Type} → Run β → Prop} {C : Nat → Code → Prop}

theorem All.bind {p : Plan α} {f : α → Plan β} (hp : p.All S C) (hf : ∀ a, (f a).All S C) :
    (p >>= f).All S C := by
  induction p with
  | finish a => exact hf a
  | act step next ih => exact ⟨hp.1, fun b => ih b (hp.2 b)⟩
  | call i depth code next ih => exact ⟨hp.1, fun a => ih a (hp.2 a)⟩

theorem All.pure (a : α) : (pure a : Plan α).All S C := trivial

theorem All.lift {step : Run α} (hs : S step) : (lift step).All S C := ⟨hs, fun _ => trivial⟩

theorem All.ite {c : Prop} [Decidable c] {p q : Plan α} (hp : p.All S C) (hq : q.All S C) :
    (if c then p else q).All S C := by
  split
  · exact hp
  · exact hq

theorem All.expr {i depth : Nat} {env : EnvId} {e : Expr Binding}
    (hc : C i (.node env (.expr e))) : (expr i depth env e).All S C := ⟨hc, fun _ => trivial⟩

theorem All.exprs {i depth : Nat} {env : EnvId} {es : List (Expr Binding)}
    (hc : C i (.node env (.exprs es))) : (exprs i depth env es).All S C := ⟨hc, fun _ => trivial⟩

theorem All.stmt {i depth : Nat} {env : EnvId} {s : Stmt Binding}
    (hc : C i (.node env (.stmt s))) : (stmt i depth env s).All S C := ⟨hc, fun _ => trivial⟩

theorem All.stmts {i depth : Nat} {env : EnvId} {body : List (Stmt Binding)}
    (hc : C i (.node env (.stmts body))) : (stmts i depth env body).All S C :=
  ⟨hc, fun _ => trivial⟩

theorem All.elifs {i depth : Nat} {env : EnvId} {branches : List (Elif Binding)}
    {elseBranch : Option (Stmt Binding)} (hc : C i (.node env (.elifs branches elseBranch))) :
    (elifs i depth env branches elseBranch).All S C := ⟨hc, fun _ => trivial⟩

theorem All.loop {i depth : Nat} {env : EnvId} {condition : Expr Binding} {body : Stmt Binding}
    (hc : C i (.node env (.loop condition body))) :
    (loop i depth env condition body).All S C := ⟨hc, fun _ => trivial⟩

theorem All.invoke {i depth : Nat} {f : Value} {values : List Value}
    (hc : C i (.invoke f values)) : (invoke i depth f values).All S C := ⟨hc, fun _ => trivial⟩

theorem All.closure {i depth : Nat} {code : Closure} {values : List Value}
    (hc : C i (.closure code values)) : (closure i depth code values).All S C :=
  ⟨hc, fun _ => trivial⟩

end Plan

/-! ### What the steps of a code set -/

/-- The names of the variables that the steps of a code set. -/
def Code.assigned : Code → List String
  | .node _ (.expr (.assign target _)) => [target.name.text]
  | .node _ (.stmt s) => declaredNames [s]
  | _ => []

/-- Whether the steps of a code set a field. -/
def Code.SetsField : Code → Prop
  | .node _ (.expr (.set _ _ _)) => True
  | _ => False

/-- The relation holds of what the steps of a code set. -/
structure Code.Obeys (R : Machine → Machine → Prop) (code : Code) : Prop where
  assigned : ∀ x ∈ code.assigned, AllowsVariable R x
  fields : code.SetsField → AllowsFields R

theorem Run.StepLaw.obeys {R : Machine → Machine → Prop} (law : StepLaw R) (code : Code) :
    code.Obeys R :=
  ⟨fun x _ m env a => law.define m env x a, fun _ => law.setField⟩

section

variable {R : Machine → Machine → Prop} (law : QuietLaw R) (settings : Settings) (depth : Nat)
  (env : EnvId)
include law

theorem Expr.plan_all {e : Expr Binding} (ho : (Code.node env (.expr e)).Obeys R) :
    (e.plan settings depth env).All (Respects R) (Code.node env (.expr e)).Calls := by
  cases e with
  | literal value => exact .pure _
  | grouping inner => exact .expr (.part rfl)
  | unary op line operand =>
    exact .bind (.expr (.part rfl)) fun _ => .lift (law.orFail _ _)
  | binary left op line right =>
    exact .bind (.expr (.part rfl)) fun _ =>
      .bind (.expr (.part rfl)) fun _ => .lift (law.orFail _ _)
  | logical left op line right =>
    exact .bind (.expr (.part rfl)) fun _ => .ite (.pure _) (.expr (.part rfl))
  | «variable» target => exact .lift (law.read _ _ _ _)
  | assign target value =>
    have hname := ho.assigned target.name.text (List.mem_singleton_self _)
    exact .bind (.expr (.part rfl)) fun _ =>
      .bind (.lift (law.write hname _ _ _ _)) fun _ => .pure _
  | call callee line arguments =>
    exact .bind (.expr (.part rfl)) fun _ => .bind (.exprs (.part rfl)) fun _ =>
      .bind (.lift (law.checkCall _ _ _ _ _)) fun _ => .invoke (.invoke _ _ _ _ _ _)
  | get object property =>
    refine .bind (.expr (.part rfl)) fun a => ?_
    split
    · exact .lift (law.getProperty _ _ _)
    · exact .lift (law.fail _ _)
  | set object field value =>
    refine .bind (.expr (.part rfl)) fun a => ?_
    split
    · exact .bind (.expr (.part rfl)) fun _ =>
        .bind (.lift (QuietLaw.modifyField (ho.fields trivial) _ _ _)) fun _ => .pure _
    · exact .lift (law.fail _ _)
  | this line binding => exact .lift (law.read _ _ _ _)
  | super line method binding => exact .lift (law.getSuper _ _ _)
  | lambda line parameters body => exact .lift (law.newFunction _)

theorem Stmt.plan_all {s : Stmt Binding} (ho : (Code.node env (.stmt s)).Obeys R) :
    (s.plan settings depth env).All (Respects R) (Code.node env (.stmt s)).Calls := by
  have hdeclares : ∀ name, s.declared = some name → AllowsVariable R name.text := by
    intro name hname
    refine ho.assigned name.text ?_
    show name.text ∈ declaredNames [s]
    simp [declaredNames, hname]
  cases s with
  | expression value => exact .bind (.expr (.part rfl)) fun _ => .pure _
  | print value =>
    exact .bind (.expr (.part rfl)) fun _ => .bind (.lift (law.emit id)) fun _ => .pure _
  | var name initializer =>
    have hdeclare := fun value => law.declareVariable (hdeclares name rfl) settings env value
    cases initializer with
    | none => exact .bind (.lift (hdeclare _)) fun _ => .pure _
    | some value =>
      exact .bind (.expr (.part rfl)) fun _ => .bind (.lift (hdeclare _)) fun _ => .pure _
  | block body => exact .bind (.lift (law.newEnv _ _)) fun _ => .stmts (.block _ _ _)
  | ifStmt condition thenBranch elifs elseBranch =>
    exact .bind (.expr (.part rfl)) fun _ => .bind (.lift (law.note _ _ _)) fun _ =>
      .ite (.stmt (.part rfl)) (.elifs (.part rfl))
  | whileStmt condition body => exact .loop (.part rfl)
  | functionDecl f =>
    cases f with
    | mk name parameters body =>
      exact .bind (.lift (law.declareFunction (hdeclares name rfl) _ _ _ _)) fun _ => .pure _
  | returnStmt line value =>
    cases value with
    | none => exact .pure _
    | some value => exact .bind (.expr (.part rfl)) fun _ => .pure _
  | breakStmt line => exact .pure _
  | classDecl name superclass methods =>
    exact .bind (.lift (law.declareClass (hdeclares name rfl) _ _ _ _)) fun _ => .pure _

/-- What one level of an evaluation consists of. -/
theorem Code.plan_all {code : Code} (ho : code.Obeys R) :
    (code.plan settings depth).All (Respects R) code.Calls := by
  cases code with
  | node env n =>
    cases n with
    | expr e => exact Expr.plan_all law settings depth env ho
    | exprs es =>
      cases es with
      | nil => exact .pure _
      | cons e rest =>
        exact .bind (.expr (.part rfl)) fun _ => .bind (.exprs (.part rfl)) fun _ => .pure _
    | stmt s => exact Stmt.plan_all law settings depth env ho
    | stmts body =>
      cases body with
      | nil => exact .pure _
      | cons s rest =>
        refine .bind (.stmt (.part rfl)) fun completion => ?_
        split
        · exact .stmts (.part rfl)
        · exact .pure _
    | elifs branches elseBranch =>
      rcases branches with _ | ⟨⟨condition, body⟩, rest⟩
      · cases elseBranch with
        | none => exact .pure _
        | some s => exact .stmt (.part rfl)
      · exact .bind (.expr (.part rfl)) fun _ => .ite (.stmt (.part rfl)) (.elifs (.part rfl))
    | loop condition body =>
      refine .bind (.expr (.part rfl)) fun _ => .bind (.lift (law.note _ _ _)) fun _ =>
        .ite (.pure _) (.bind (.stmt (.part rfl)) fun completion => ?_)
      split
      · exact .loop (.part rfl)
      · exact .pure _
      · exact .pure _
  | invoke callee values =>
    show (Plan.ofCall settings depth callee values).All (Respects R) _
    unfold Plan.ofCall
    split
    · exact .closure (.closure _ _ _)
    · refine .bind (.lift law.newObject) fun _ => ?_
      split
      · exact .pure _
      · exact .bind (.lift (law.bindMethod _ _)) fun _ =>
          .bind (.closure (.closure _ _ _)) fun _ => .pure _
    · exact .lift (law.readClock _)
    · exact .pure _
  | closure code values =>
    exact .bind (.lift (law.newEnv _ _)) fun _ => .bind (.stmts (.body _ _ _)) fun _ =>
      .lift (law.callValue _ _)

end

/-! ## Laws of steps as laws of visits -/

theorem Code.run_zero (settings : Settings) (depth : Nat) (code : Code) :
    code.run settings 0 depth = throw .outOfFuel := by
  cases code with
  | node env n =>
    cases n with
    | expr e => simp only [Code.run, Run.evaluate]
    | exprs es => simp only [Code.run, Run.evaluateAll]
    | stmt s => simp only [Code.run, Run.execute]
    | stmts body => simp only [Code.run, Run.executeAll]
    | elifs branches elseBranch => simp only [Code.run, Run.executeElifs]
    | loop condition body => simp only [Code.run, Run.executeLoop]
  | invoke callee values => simp only [Code.run, Run.invoke]
  | closure code values => simp only [Code.run, Run.runCode]

namespace Run.QuietLaw

variable {R : Machine → Machine → Prop} (law : QuietLaw R)
include law

section

variable {α : Type} {child : (depth : Nat) → (code : Code) → Run code.Result}
  {C : Nat → Code → Prop}

/-- A plan obeys the law if the evaluations that it comes to do. -/
theorem follow {p : Plan α} {m : Machine} (hp : p.All (Respects R) C)
    (hchild : ∀ i depth code m', p.Meets child m i depth code m' →
      R m' (lastMachine (child depth code m'))) : R m (lastMachine (p.follow child m)) := by
  induction p generalizing m with
  | finish a => exact law.refl m
  | act step next ih =>
    have hstep := hp.1 m
    unfold Plan.follow
    rw [bind_apply]
    cases hs : step m with
    | error e m' =>
      rw [hs] at hstep
      exact hstep
    | ok b m' =>
      rw [hs] at hstep
      exact law.trans hstep (ih b (hp.2 b) fun i depth code m₁ hm =>
        hchild i depth code m₁ (.act hs hm))
  | call i n code next ih =>
    have hcall := hchild i n code m (.here ..)
    unfold Plan.follow
    rw [bind_apply]
    cases hs : child n code m with
    | error e m' =>
      rw [hs] at hcall
      exact hcall
    | ok a m' =>
      rw [hs] at hcall
      exact law.trans hcall (ih a (hp.2 a) fun i depth code m₁ hm =>
        hchild i depth code m₁ (.call hs hm))

/-- So does the way to one of them. -/
theorem meets {p : Plan α} {m m' : Machine} {i depth : Nat} {code : Code}
    (hp : p.All (Respects R) C)
    (hchild : ∀ i depth code m', p.Meets child m i depth code m' →
      R m' (lastMachine (child depth code m')))
    (hm : p.Meets child m i depth code m') : C i code ∧ R m m' := by
  induction hm with
  | here i depth code next m => exact ⟨hp.1, law.refl m⟩
  | @act _ _ _ m _ _ _ _ _ _ hs _ ih =>
    obtain ⟨hc, hr⟩ := ih (hp.2 _) fun i depth code m₁ hm => hchild i depth code m₁ (.act hs hm)
    have hstep := hp.1 m
    rw [hs] at hstep
    exact ⟨hc, law.trans hstep hr⟩
  | @call _ n other _ m _ _ _ _ _ _ hs _ ih =>
    obtain ⟨hc, hr⟩ := ih (hp.2 _) fun i depth code m₁ hm => hchild i depth code m₁ (.call hs hm)
    have hstep := hchild _ n other m (.here ..)
    rw [hs] at hstep
    exact ⟨hc, law.trans hstep hr⟩

end

end Run.QuietLaw

/-- A law of the steps of all visits of a kind, which is closed under parts. -/
structure Run.LawOn (settings : Settings) (P : Visit → Prop) (R : Machine → Machine → Prop) : Prop
    extends QuietLaw R where
  part : ∀ {i v v'}, P v → v.Starts settings i v' → P v'
  obeys : ∀ {v}, P v → v.code.Obeys R

namespace Run.LawOn

variable {settings : Settings} {P : Visit → Prop} {R : Machine → Machine → Prop}
  (law : LawOn settings P R) {v : Visit} (hv : P v)
include law hv

theorem plan_all :
    (v.code.plan settings v.depth).All (Respects R) v.code.Calls :=
  Code.plan_all law.toQuietLaw settings v.depth (law.obeys hv)

/-- A visit of the kind relates its machine to the one it ends with. -/
theorem run : R v.machine (lastMachine (v.run settings)) := by
  induction hfuel : v.fuel generalizing v with
  | zero =>
    rw [Visit.run, hfuel, Code.run_zero]
    exact law.refl _
  | succ fuel ih =>
    rw [Visit.run, hfuel, Code.run_succ]
    refine law.follow (law.plan_all hv) fun i depth code m hm => ?_
    have hs : v.Starts settings i ⟨fuel, depth, code, m⟩ := ⟨hfuel, hm⟩
    exact ih (law.part hv hs) rfl

/-- The visits that it comes to are of the kind, too. -/
theorem run_of_meets {n i depth : Nat} {code : Code} {m : Machine} (hfuel : v.fuel = n + 1)
    (hm : (v.code.plan settings v.depth).Meets (Code.run settings n) v.machine i depth code m) :
    R m (lastMachine (code.run settings n depth m)) := by
  have hs : v.Starts settings i ⟨n, depth, code, m⟩ := ⟨hfuel, hm⟩
  exact law.run (law.part hv hs)

/-- It relates its machine to those of the visits that it starts. -/
theorem starts {i : Nat} {v' : Visit} (hs : v.Starts settings i v') :
    v.code.Calls i v'.code ∧ R v.machine v'.machine :=
  law.meets (law.plan_all hv) (fun _ _ _ _ hm => law.run_of_meets hv hs.1 hm) hs.2

end Run.LawOn

namespace Run.StepLaw

variable {R : Machine → Machine → Prop} (law : StepLaw R)
include law

/-- It is a law of the steps of all visits. -/
theorem on (settings : Settings) : LawOn settings (fun _ => True) R where
  toQuietLaw := law.toQuietLaw
  part _ _ := trivial
  obeys _ := law.obeys _

/-- A law of steps is a law of evaluations. -/
theorem run (settings : Settings) (fuel depth : Nat) (code : Code) :
    Respects R (code.run settings fuel depth) := fun m =>
  (law.on settings).run (v := ⟨fuel, depth, code, m⟩) trivial

theorem program (settings : Settings) (fuel : Nat) :
    ∀ p : Program Binding, Respects R (Run.program settings fuel p)
  | [] => law.pure _
  | s :: rest =>
    law.bind (law.run settings fuel 0 (.node .globals (.stmt s))) fun _ =>
      program settings fuel rest

variable {settings : Settings} {i : Nat} {v v' : Visit}

theorem starts (hs : v.Starts settings i v') : v.code.Calls i v'.code ∧ R v.machine v'.machine :=
  (law.on settings).starts trivial hs

end Run.StepLaw

section

variable {settings : Settings} {i : Nat} {v v' : Visit}

theorem Visit.Starts.calls (hs : v.Starts settings i v') : v.code.Calls i v'.code :=
  (grows_stepLaw.starts hs).1

/-- A visit that starts another one has a heap that grows to that of the other
one. -/
theorem Visit.Starts.grows (hs : v.Starts settings i v') : v.heap.Grows v'.heap :=
  (grows_stepLaw.starts hs).2

/-- The heap at the end of a visit has grown from that at its start. -/
theorem Visit.grows_of_run {a : v.code.Result} {m : Machine} (hr : v.run settings = .ok a m) :
    v.heap.Grows m.heap := by
  have hg := grows_stepLaw.run settings v.fuel v.depth v.code v.machine
  unfold Visit.run at hr
  rw [hr] at hg
  exact hg

/-! ## Visits that a visit leads to -/

/-- The visit leads to another one, which is itself or starts from it through visits of
codes with the property. -/
inductive Visit.Leads (settings : Settings) (P : Code → Prop) : Visit → Visit → Prop where
  | refl (v : Visit) : Leads settings P v v
  | step {i : Nat} {v v' u : Visit} : v.Starts settings i v' → P v'.code →
      Leads settings P v' u → Leads settings P v u

theorem Visit.Leads.snoc {P : Code → Prop} {u : Visit} (hv : v.Leads settings P v')
    (hs : v'.Starts settings i u) (hp : P u.code) : v.Leads settings P u := by
  induction hv with
  | refl v => exact .step hs hp (.refl u)
  | step hs' hp' _ ih => exact .step hs' hp' (ih hs)

/-- The first visit is the second one or leads to it. -/
abbrev Visit.Covers (settings : Settings) (v u : Visit) : Prop := v.Leads settings (fun _ => True) u

/-! ## Visits in new environments -/

theorem Visit.Starts.block {env : EnvId} {body : List (Stmt Binding)}
    (hc : v.code = .node env (.stmt (.block body))) (hs : v.Starts settings i v') :
    v'.code = .node v.heap.nextEnv (.stmts body) ∧ v'.machine = v.machine.pushEnv env ∅ := by
  obtain ⟨fuel, depth, code, m⟩ := v
  obtain ⟨fuel', depth', code', m'⟩ := v'
  obtain rfl : code = .node env (.stmt (.block body)) := hc
  obtain ⟨-, hm⟩ := hs
  cases hm with
  | act hstep hm =>
    cases hstep
    cases hm with
    | here => exact ⟨rfl, rfl⟩
    | call _ hm => cases hm

theorem Visit.Starts.closure {code : Closure} {values : List Value}
    (hc : v.code = .closure code values) (hs : v.Starts settings i v') :
    v'.code = .node v.heap.nextEnv (.stmts code.body) ∧
      v'.machine = v.machine.pushEnv code.scope (argumentSlots code.parameters values ∅) := by
  obtain ⟨fuel, depth, code, m⟩ := v
  obtain ⟨fuel', depth', code', m'⟩ := v'
  obtain rfl : code = .closure _ values := hc
  obtain ⟨-, hm⟩ := hs
  cases hm with
  | act hstep hm =>
    cases hstep
    cases hm with
    | here => exact ⟨rfl, rfl⟩
    | call _ hm =>
      cases hm with
      | act _ hm => cases hm

/-! ## Visits in calls -/

/-- A call calls what its callee evaluates to. -/
theorem Visit.Starts.callee {env : EnvId} {callee : Expr Binding} {line : Nat}
    {arguments : List (Expr Binding)}
    (hc : v.code = .node env (.expr (.call callee line arguments)))
    (hs : v.Starts settings 2 v') :
    ∃ f m values, evaluate settings v'.fuel v.depth env callee v.machine = .ok f m ∧
      v'.code = .invoke f values := by
  obtain ⟨fuel, depth, code, m⟩ := v
  obtain ⟨fuel', depth', code', m'⟩ := v'
  obtain rfl : code = .node env (.expr (.call callee line arguments)) := hc
  obtain ⟨-, hm⟩ := hs
  cases hm with
  | call hcallee hm =>
    cases hm with
    | call _ hm =>
      cases hm with
      | act _ hm =>
        cases hm with
        | here => exact ⟨_, _, _, hcallee, rfl⟩
        | call _ hm => cases hm

/-- A checked call of a function runs its code. -/
theorem Visit.Starts.function {id : Nat} {f : Closure} {values : List Value}
    (hc : v.code = .invoke (.function id f) values) (hs : v.Starts settings i v') :
    v'.code = .closure f values := by
  obtain ⟨fuel, depth, code, m⟩ := v
  obtain ⟨fuel', depth', code', m'⟩ := v'
  obtain rfl : code = .invoke (.function id f) values := hc
  obtain ⟨-, hm⟩ := hs
  cases hm with
  | here => rfl
  | call _ hm => cases hm

/-- So the code of a function runs in the call of an expression that it is the value of. -/
theorem Visit.Starts.called {n id j : Nat} {env : EnvId} {callee : Expr Binding} {line : Nat}
    {arguments : List (Expr Binding)} {f : Closure} {m : Machine} {u : Visit}
    (hc : v.code = .node env (.expr (.call callee line arguments))) (hfuel : v.fuel = n + 1)
    (hf : evaluate settings n v.depth env callee v.machine = .ok (.function id f) m)
    (hs : v.Starts settings 2 v') (hu : v'.Starts settings j u) :
    ∃ values, u.code = .closure f values := by
  obtain ⟨f', m', values, hf', hc'⟩ := hs.callee hc
  obtain rfl : n = v'.fuel := Nat.succ.inj (hfuel.symm.trans hs.1)
  rw [hf] at hf'
  cases hf'
  exact ⟨values, hu.function hc'⟩

/-! ## Visits of statements in sequence -/

/-- The statements behind a first one run in the machine that it leaves when it
completes. -/
theorem Visit.Starts.rest {env : EnvId} {s : Stmt Binding} {rest : List (Stmt Binding)}
    (hc : v.code = .node env (.stmts (s :: rest))) (hs : v.Starts settings 1 v') :
    execute settings v'.fuel v.depth env s v.machine = .ok .normal v'.machine := by
  obtain ⟨fuel, depth, code, m⟩ := v
  obtain ⟨fuel', depth', code', m'⟩ := v'
  obtain rfl : code = .node env (.stmts (s :: rest)) := hc
  obtain ⟨-, hm⟩ := hs
  cases hm with
  | @call _ _ _ _ _ _ _ completion _ _ _ hrun hm =>
    cases completion with
    | normal =>
      cases hm with
      | here => exact hrun
      | call _ hm => cases hm
    | broke => cases hm
    | returned value => cases hm

/-! ## Visits of declarations -/

theorem Run.execute_classDecl {fuel depth : Nat} {env : EnvId} {name : Name}
    {superclass : Option (Reference Binding)} {methods : List (Function Binding)}
    {m m' : Machine} {c : Completion}
    (hr : execute settings fuel depth env (.classDecl name superclass methods) m = .ok c m') :
    ∃ parent, superclassOf settings env superclass m = .ok parent m ∧
      m' = classMachine settings env name parent methods m := by
  cases fuel with
  | zero =>
    simp only [Run.execute] at hr
    cases hr
  | succ fuel =>
    simp only [Run.execute] at hr
    obtain ⟨u, m₁, hd, hp⟩ := bind_eq_ok.mp hr
    cases hp
    exact declareClass_eq_ok hd

/-- A declaration that completes has set its name. -/
theorem Run.execute_declares {fuel depth : Nat} {env : EnvId} {s : Stmt Binding} {m m' : Machine}
    {c : Completion} (hr : execute settings fuel depth env s m = .ok c m')
    (hlt : env.index < m.heap.environments.size) :
    ∀ x ∈ declaredNames [s], m'.heap.Has env x := by
  intro x hx
  cases s with
  | var name initializer =>
    obtain rfl := List.mem_singleton.mp hx
    cases fuel with
    | zero =>
      simp only [Run.execute] at hr
      cases hr
    | succ fuel =>
      cases initializer with
      | none =>
        simp only [Run.execute, bind_apply, declareVariable_apply] at hr
        cases hr
        simpa using Heap.has_define hlt name.text .nil
      | some value =>
        simp only [Run.execute] at hr
        obtain ⟨a, m₁, he, hr⟩ := bind_eq_ok.mp hr
        have hg : m.heap.Grows m₁.heap :=
          Visit.grows_of_run (v := ⟨fuel, depth, .node env (.expr value), m⟩) he
        rw [bind_apply, declareVariable_apply] at hr
        cases hr
        simpa using Heap.has_define (Nat.lt_of_lt_of_le hlt hg.size) name.text a
  | functionDecl f =>
    obtain ⟨name, parameters, body⟩ := f
    obtain rfl := List.mem_singleton.mp hx
    cases fuel with
    | zero =>
      simp only [Run.execute] at hr
      cases hr
    | succ fuel =>
      simp only [Run.execute, bind_apply, declareFunction_apply] at hr
      cases hr
      rw [Machine.heap_noted]
      exact Heap.has_define (h := m.heap.takeId) hlt name.text _
  | classDecl name superclass methods =>
    obtain rfl := List.mem_singleton.mp hx
    obtain ⟨parent, -, rfl⟩ := execute_classDecl hr
    exact has_classMachine hlt
  | _ => cases hx

theorem Visit.run_declares {env : EnvId} {s : Stmt Binding} {a : v.code.Result} {m : Machine}
    (hc : v.code = .node env (.stmt s)) (hr : v.run settings = .ok a m)
    (hlt : env.index < v.heap.environments.size) :
    ∀ x ∈ declaredNames [s], m.heap.Has env x := by
  obtain ⟨fuel, depth, code, m₀⟩ := v
  obtain rfl : code = .node env (.stmt s) := hc
  exact execute_declares hr hlt

theorem Visit.run_classDecl {env : EnvId} {name : Name} {superclass : Option (Reference Binding)}
    {methods : List (Function Binding)} {a : v.code.Result} {m : Machine}
    (hc : v.code = .node env (.stmt (.classDecl name superclass methods)))
    (hr : v.run settings = .ok a m) :
    ∃ parent, superclassOf settings env superclass v.machine = .ok parent v.machine ∧
      m = classMachine settings env name parent methods v.machine := by
  obtain ⟨fuel, depth, code, m₀⟩ := v
  obtain rfl : code = .node env (.stmt (.classDecl name superclass methods)) := hc
  exact execute_classDecl hr

/-- The visit makes the class, by a declaration with the given methods in the given
environment. -/
structure Visit.Declares (settings : Settings) (v : Visit) (env : EnvId)
    (methods : List (Function Binding)) (c : Class) : Prop where
  /-- The superclass is what the declaration reads for it. -/
  code : ∃ name parent, v.code = .node env (.stmt (.classDecl name parent methods)) ∧
    superclassOf settings env parent v.machine = .ok c.superclass v.machine ∧ c.name = name.text
  completes : ∃ a m, v.run settings = .ok a m
  id : c.id = v.heap.nextId
  methods : c.methods = classMethods (methodEnv v.machine env c.superclass) methods ∅

theorem Class.ext {c c' : Class} (hid : c.id = c'.id) (hname : c.name = c'.name)
    (hsuper : c.superclass = c'.superclass) (hmethods : c.methods = c'.methods) : c = c' := by
  obtain ⟨id, name, superclass, methods⟩ := c
  obtain ⟨id', name', superclass', methods'⟩ := c'
  obtain rfl : id = id' := hid
  obtain rfl : name = name' := hname
  obtain rfl : superclass = superclass' := hsuper
  obtain rfl : methods = methods' := hmethods
  rfl

/-- A visit declares one class. -/
theorem Visit.Declares.unique {env env' : EnvId} {methods methods' : List (Function Binding)}
    {c c' : Class} (hd : v.Declares settings env methods c)
    (hd' : v.Declares settings env' methods' c') : c = c' := by
  obtain ⟨name, parent, hcode, hsuper, hname⟩ := hd.code
  obtain ⟨name', parent', hcode', hsuper', hname'⟩ := hd'.code
  rw [hcode] at hcode'
  cases hcode'
  rw [hsuper] at hsuper'
  have hparents : c.superclass = c'.superclass := by
    injection hsuper'
  have hmethods := hd.methods
  rw [hparents] at hmethods
  exact Class.ext (hd.id.trans hd'.id.symm) (hname.trans hname'.symm) hparents
    (hmethods.trans hd'.methods.symm)

/-- The machine in which the class of a completed declaration is made. -/
theorem Visit.declares_of_run {env : EnvId} {name : Name} {superclass : Option (Reference Binding)}
    {methods : List (Function Binding)} {parent : Option Class} {a : v.code.Result} {m : Machine}
    (hc : v.code = .node env (.stmt (.classDecl name superclass methods)))
    (hs : superclassOf settings env superclass v.machine = .ok parent v.machine)
    (hr : v.run settings = .ok a m) :
    v.Declares settings env methods
      (.mk v.heap.nextId name.text parent
        (classMethods (methodEnv v.machine env parent) methods ∅)) where
  code := ⟨name, superclass, hc, hs, rfl⟩
  completes := ⟨a, m, hr⟩
  id := rfl
  methods := rfl

end

end ClassScript
