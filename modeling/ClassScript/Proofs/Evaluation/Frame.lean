import ClassScript.Proofs.Evaluation.Visit
import ClassScript.Proofs.Heap.Region

/-!
# Evaluation in a region

A run *keeps to* a closed region if it leaves everything outside of it as it is, keeps it
closed, and completes with a result inside of it, whether it completes or aborts
(`Run.KeepsTo`).  The evaluation of a code whose environment and values lie in a closed
region keeps to it (`Run.run_keepsTo`).

Nothing is asked of the heap but that the region is closed.
-/

namespace ClassScript

open Run

variable {S : Set Item}

/-- A plain value leads to nothing. -/
theorem Value.Plain.within {a : Value} (ha : a.Plain) : a.Within S := by
  cases a <;> trivial

theorem Value.within_nil : Value.nil.Within S := trivial

/-- The value that a completion hands on lies in the region. -/
def Completion.Within (S : Set Item) : Completion → Prop
  | .returned a => a.Within S
  | _ => True

/-- The slots of a call hold its arguments. -/
theorem within_argumentSlots {x : String} {a : Value} :
    ∀ (names : List Name) (values : List Value) (slots : Slots Value),
      (∀ v ∈ values, v.Within S) → (∀ x a, slots.get? x = some a → a.Within S) →
      (argumentSlots names values slots).get? x = some a → a.Within S
  | name :: names, value :: values, slots, hvalues, hslots, hx => by
    refine within_argumentSlots names values (slots.set name.text value)
      (fun v hv => hvalues v (List.mem_cons_of_mem _ hv)) (fun y b hy => ?_) hx
    by_cases hn : name.text = y
    · subst hn
      rw [Slots.get?_set_self] at hy
      cases hy
      exact hvalues value (List.mem_cons_self ..)
    · rw [Slots.get?_set_of_ne _ _ hn] at hy
      exact hslots y b hy
  | [], _, slots, _, hslots, hx => by
    unfold argumentSlots at hx
    exact hslots _ _ hx
  | _ :: _, [], slots, _, hslots, hx => by
    unfold argumentSlots at hx
    exact hslots _ _ hx

/-- All methods of a class have the same scope. -/
theorem scope_of_classMethods {scope : EnvId} {x : String} {code : Closure} :
    ∀ (methods : List (Function Binding)) (slots : Slots Closure),
      (∀ x code, slots.get? x = some code → code.scope = scope) →
      (classMethods scope methods slots).get? x = some code → code.scope = scope
  | [], _, hslots, hx => hslots _ _ hx
  | .mk name parameters body :: rest, slots, hslots, hx => by
    refine scope_of_classMethods rest _ (fun y other hy => ?_) hx
    by_cases hn : name.text = y
    · subst hn
      rw [Slots.get?_set_self] at hy
      cases hy
      rfl
    · rw [Slots.get?_set_of_ne _ _ hn] at hy
      exact hslots y other hy

theorem Slots.get?_of_single {α : Type} {name x : String} {value a : α}
    (hx : (Slots.single name value).get? x = some a) : a = value := by
  simp only [Slots.single, Slots.get?, Slots.find?] at hx
  split at hx
  · exact (Option.some.inj hx).symm
  · cases hx

namespace Run

/-- The run leaves what lies outside of the region as it is, and keeps the region closed.  Its
result has the property `Q`. -/
def KeepsTo {α : Type} (S : Set Item) (Q : α → Prop) (x : Run α) : Prop :=
  ∀ m : Machine, m.heap.Closed S →
    (lastMachine (x m)).heap.Closed S ∧ m.heap.Spares S (lastMachine (x m)).heap ∧
      ∀ a m', x m = .ok a m' → Q a

namespace KeepsTo

variable {α β : Type} {P : α → Prop} {Q : β → Prop}

/-! ## Rules -/

/-- A step that leaves the heap alone. -/
theorem of_heap_eq {x : Run α} (hheap : ∀ m, (lastMachine (x m)).heap = m.heap)
    (hresult : ∀ m a m', m.heap.Closed S → x m = .ok a m' → P a) : KeepsTo S P x := by
  intro m hc
  rw [hheap m]
  exact ⟨hc, .refl _, fun a m' hr => hresult m a m' hc hr⟩

theorem pure {a : α} (ha : P a) : KeepsTo S P (pure a) :=
  of_heap_eq (fun _ => rfl) fun _ _ _ _ hr => by cases hr; exact ha

/-- A step that aborts leaves the heap as it is. -/
theorem throw (e : Abort) : KeepsTo S P (throw e) :=
  of_heap_eq (fun _ => rfl) fun _ _ _ _ hr => nomatch hr

theorem fail (error : RuntimeError) (line : Nat) : KeepsTo S P (fail error line) := throw _

/-- Steps in sequence keep to a region, if the second one does for what the first one yields. -/
theorem bind {x : Run α} {f : α → Run β} (hx : KeepsTo S P x)
    (hf : ∀ a, P a → KeepsTo S Q (f a)) : KeepsTo S Q (x >>= f) := by
  intro m hc
  obtain ⟨hclosed, hspares, hp⟩ := hx m hc
  rw [bind_apply]
  cases hr : x m with
  | error e m' =>
    rw [hr] at hclosed hspares
    exact ⟨hclosed, hspares, fun _ _ h => nomatch h⟩
  | ok a m' =>
    rw [hr] at hclosed hspares
    obtain ⟨hclosed', hspares', hq⟩ := hf a (hp a m' hr) m' hclosed
    exact ⟨hclosed', hspares.trans hspares', hq⟩

theorem ite {c : Prop} [Decidable c] {x y : Run α} (hx : KeepsTo S P x) (hy : KeepsTo S P y) :
    KeepsTo S P (if c then x else y) := by
  split
  · exact hx
  · exact hy

/-- The operators yield plain values. -/
theorem orFail (line : Nat) {r : Except RuntimeError Value} (hr : ∀ a, r = .ok a → a.Plain) :
    KeepsTo S (Value.Within S) (orFail line r) := by
  cases r with
  | ok a => exact pure (hr a rfl).within
  | error e => exact fail e line

/-! ## Steps -/

theorem emit (event : Event) : KeepsTo S (fun _ => True) (emit event) :=
  of_heap_eq (fun _ => rfl) fun _ _ _ _ _ => trivial

theorem note (settings : Settings) (level : Nat) (line : String) :
    KeepsTo S (fun _ => True)
      (if level ≤ settings.verbosity then Run.emit (.noted line) else Pure.pure ()) :=
  ite (emit _) (pure trivial)

/-- A new environment belongs to the region, if its parent and its values do. -/
theorem newEnv {parent : EnvId} (hp : .env parent ∈ S) {slots : Slots Value}
    (hs : ∀ x a, slots.get? x = some a → a.Within S) :
    KeepsTo S (fun env => .env env ∈ S) (newEnv parent slots) := by
  intro m hc
  refine ⟨hc.pushEnv hp hs, hc.spares_pushEnv _ _, fun env m' hr => ?_⟩
  cases hr
  exact hc.newEnv _ (Nat.le_refl _)

/-- A new object belongs to every region. -/
theorem newObject : KeepsTo S (fun id => .object id ∈ S) newObject := by
  intro m hc
  refine ⟨hc.pushObject, hc.spares_pushObject, fun id m' hr => ?_⟩
  cases hr
  exact hc.newObject _ (Nat.le_refl _)

theorem newId : KeepsTo S (fun _ => True) newId :=
  fun _ hc => ⟨⟨hc.globals, hc.parent, hc.slots, hc.fields, hc.newEnv, hc.newObject⟩,
    ⟨fun _ _ => rfl, fun _ _ => rfl⟩, fun _ _ _ => trivial⟩

/-- A variable may be set in the region, to a value in the region. -/
theorem define {env : EnvId} (he : .env env ∈ S) (name : String) {value : Value}
    (hv : value.Within S) : KeepsTo S (fun _ => True) (define env name value) :=
  fun _ hc => ⟨hc.define name hv, Heap.spares_define he name value, fun _ _ _ => trivial⟩

/-- A field may be set in the region, to a value in the region. -/
theorem setField {id : ObjectId} (ho : .object id ∈ S) (name : String) {value : Value}
    (hv : value.Within S) :
    KeepsTo S (fun _ => True) (modifyHeap (·.setField id name value)) :=
  fun _ hc => ⟨hc.setField name hv, Heap.spares_setField ho name value, fun _ _ _ => trivial⟩

theorem readClock (settings : Settings) : KeepsTo S (Value.Within S) (readClock settings) :=
  of_heap_eq (fun _ => rfl) fun _ _ _ _ hr => by cases hr; trivial

/-! ### Variables -/

/-- What is read by name from an environment of the region is in the region. -/
theorem readByName {env : EnvId} (he : .env env ∈ S) (name : Name) :
    KeepsTo S (Value.Within S) (readByName env name) := by
  refine of_heap_eq (fun m => ?_) fun m a m' hc hr => ?_
  · unfold Run.readByName
    split <;> rfl
  · unfold Run.readByName at hr
    split at hr
    · rename_i value hvalue
      cases hr
      exact hc.reach_env he ((Heap.Reach.self ..).find? hvalue)
    · cases hr

/-- The walk to a distance stays in the region. -/
theorem readAt {env : EnvId} (he : .env env ∈ S) (distance : Int) (name : String) :
    KeepsTo S (Value.Within S) (readAt env distance name) := by
  refine of_heap_eq (fun m => ?_) fun m a m' hc hr => ?_
  · unfold Run.readAt
    split <;> rfl
  · unfold Run.readAt at hr
    split at hr
    · rename_i value hvalue
      cases hr
      exact hc.reach_env he ((Heap.Reach.self ..).getAt hvalue)
    · cases hr

/-- An assignment by name stays in the region. -/
theorem writeByName {env : EnvId} (he : .env env ∈ S) (name : Name) {value : Value}
    (hv : value.Within S) : KeepsTo S (fun _ => True) (writeByName env name value) := by
  intro m hc
  unfold Run.writeByName
  split
  · rename_i holder hholder
    have hin : Item.env holder ∈ S := hc.reach_env he ((Heap.Reach.self ..).holder? hholder)
    exact define hin name.text hv m hc
  · exact throw _ m hc

/-- An assignment at a distance stays in the region. -/
theorem writeAt {env : EnvId} (he : .env env ∈ S) (distance : Int) (name : String) {value : Value}
    (hv : value.Within S) : KeepsTo S (fun _ => True) (writeAt env distance name value) := by
  intro m hc
  unfold Run.writeAt
  split
  · rename_i outer houter
    have hin : Item.env outer ∈ S := hc.reach_env he ((Heap.Reach.self ..).ancestorEnv houter)
    exact define hin name hv m hc
  · exact throw _ m hc

/-- The globals belong to every closed region. -/
theorem of_globals {x : Run α} (h : .env .globals ∈ S → KeepsTo S P x) : KeepsTo S P x :=
  fun m hc => h hc.globals m hc

theorem read (settings : Settings) {env : EnvId} (he : .env env ∈ S) (name : Name)
    (binding : Binding) : KeepsTo S (Value.Within S) (read settings env name binding) := by
  unfold Run.read
  split
  · exact readAt he _ _
  · exact of_globals fun hg => readByName hg name
  · exact readByName he name

theorem write (settings : Settings) {env : EnvId} (he : .env env ∈ S) (name : Name)
    (binding : Binding) {value : Value} (hv : value.Within S) :
    KeepsTo S (fun _ => True) (write settings env name binding value) := by
  unfold Run.write
  split
  · exact writeAt he _ _ hv
  · exact of_globals fun hg => writeByName hg name hv
  · exact writeByName he name hv

/-! ### Functions, methods and properties -/

theorem newFunction {code : Closure} (hs : .env code.scope ∈ S) :
    KeepsTo S (Value.Within S) (newFunction code) :=
  newId.bind fun _ _ => pure hs

/-- A method of the region that is bound to an object of the region stays in it. -/
theorem bindMethod {method : Closure} (hs : .env method.scope ∈ S) {object : Value}
    (ho : object.Within S) :
    KeepsTo S (fun code => .env code.scope ∈ S) (bindMethod method object) := by
  have hslots : ∀ x a, (Slots.single "this" object).get? x = some a → a.Within S :=
    fun x a hx => Slots.get?_of_single hx ▸ ho
  exact (newEnv hs hslots).bind fun env henv => pure henv

theorem methodValue {method : Closure} (hs : .env method.scope ∈ S) {object : Value}
    (ho : object.Within S) : KeepsTo S (Value.Within S) (methodValue method object) :=
  (bindMethod hs ho).bind fun _ hcode => newFunction hcode

theorem get : KeepsTo S (fun m : Machine => m.heap.Closed S) get :=
  of_heap_eq (fun _ => rfl) fun _ _ _ hc hr => by cases hr; exact hc

/-- The fields of an object of the region are in the region, and so are its methods. -/
theorem getProperty {id : ObjectId} {definition : Class}
    (ho : (Value.object id definition).Within S) (property : Name) :
    KeepsTo S (Value.Within S) (getProperty id definition property) := by
  refine get.bind fun m hc => ?_
  split
  · rename_i value hvalue
    exact pure (hc.fields _ _ _ ho.1 hvalue)
  · split
    · rename_i method hmethod
      exact methodValue (ho.2.findMethod? hmethod) ho
    · exact fail _ _

/-- So are the methods of a superclass. -/
theorem getSuper {env : EnvId} (he : .env env ∈ S) (binding : Binding) (method : Name) :
    KeepsTo S (Value.Within S) (getSuper env binding method) := by
  unfold Run.getSuper
  split
  · exact throw _
  · refine (readAt he _ _).bind fun parent hparent => ?_
    split
    · refine (readAt he _ _).bind fun object hobject => ?_
      split
      · rename_i definition _ code hcode
        have hclass : definition.Within S := hparent
        exact methodValue (hclass.findMethod? hcode) hobject
      · exact fail _ _
    · exact throw _

/-- The value of a call is in the region, also that of an initializer. -/
theorem callValue {code : Closure} (hs : .env code.scope ∈ S) {completion : Completion}
    (hc : completion.Within S) : KeepsTo S (Value.Within S) (callValue code completion) := by
  refine ite (readAt hs _ _) ?_
  split
  · exact pure hc
  · exact pure trivial

/-! ### Declarations and calls -/

/-- A superclass that is found is in the region. -/
theorem superclassOf (settings : Settings) {env : EnvId} (he : .env env ∈ S)
    (superclass : Option (Reference Binding)) :
    KeepsTo S (fun parent => ∀ c, parent = some c → c.Within S)
      (superclassOf settings env superclass) := by
  unfold Run.superclassOf
  split
  · exact pure nofun
  · refine (read settings he _ _).bind fun a ha => ?_
    split
    · exact pure fun c hc => by cases hc; exact ha
    · exact fail _ _

theorem methodScope {env : EnvId} (he : .env env ∈ S) {parent : Option Class}
    (hp : ∀ c, parent = some c → c.Within S) :
    KeepsTo S (fun scope => .env scope ∈ S) (methodScope env parent) := by
  cases parent with
  | none => exact pure he
  | some parent =>
    refine newEnv he fun x a hx => ?_
    obtain rfl := Slots.get?_of_single hx
    exact hp parent rfl

/-- The class that a declaration makes has its methods in the region. -/
theorem declareClass (settings : Settings) {env : EnvId} (he : .env env ∈ S) (name : Name)
    (superclass : Option (Reference Binding)) (methods : List (Function Binding)) :
    KeepsTo S (fun _ => True) (declareClass settings env name superclass methods) := by
  refine (superclassOf settings he superclass).bind fun parent hparent =>
    (define he _ Value.within_nil).bind fun _ _ => (methodScope he hparent).bind fun scope hscope =>
      newId.bind fun id _ => ?_
  have hclass :
      (Value.classRef (.mk id name.text parent (classMethods scope methods ∅))).Within S := by
    refine Class.Within.mk (fun x code hcode => ?_) hparent
    rw [scope_of_classMethods methods ∅ (fun _ _ hx => by cases hx) hcode]
    exact hscope
  exact (define he _ hclass).bind fun _ _ => note _ _ _

theorem declareVariable (settings : Settings) {env : EnvId} (he : .env env ∈ S) (name : Name)
    {value : Value} (hv : value.Within S) :
    KeepsTo S (fun _ => True) (declareVariable settings env name value) :=
  (define he _ hv).bind fun _ _ => note _ _ _

theorem declareFunction (settings : Settings) {env : EnvId} (he : .env env ∈ S)
    (declaration : Function Binding) :
    KeepsTo S (fun _ => True) (declareFunction settings env declaration) := by
  cases declaration with
  | mk name parameters body =>
    have hcode : KeepsTo S (Value.Within S)
        (Run.newFunction ⟨some name.text, parameters, body, env, false⟩) := newFunction he
    exact hcode.bind fun _ hv => (define he _ hv).bind fun _ _ => note _ _ _

/-- The check of a call leaves the heap as it is. -/
theorem checkCall (settings : Settings) (depth : Nat) (callee : Value) (count line : Nat) :
    KeepsTo S (fun _ => True) (checkCall settings depth callee count line) := by
  refine of_heap_eq (fun m => ?_) fun _ _ _ _ _ => trivial
  rw [checkCall_apply]
  split
  · rfl
  · split
    · split <;> simp [lastMachine]
    · rfl

end KeepsTo

end Run

/-! ## Plans -/

/-- What a code works on lies in the region. -/
def Code.Within (S : Set Item) : Code → Prop
  | .node env _ => .env env ∈ S
  | .invoke callee values => callee.Within S ∧ ∀ a ∈ values, a.Within S
  | .closure code values => .env code.scope ∈ S ∧ ∀ a ∈ values, a.Within S

/-- The result of a code lies in the region. -/
def Code.ResultWithin (S : Set Item) : (code : Code) → code.Result → Prop
  | .node _ (.expr _), a => a.Within S
  | .node _ (.exprs _), values => ∀ a ∈ values, a.Within S
  | .node _ (.stmt _), c => c.Within S
  | .node _ (.stmts _), c => c.Within S
  | .node _ (.elifs _ _), c => c.Within S
  | .node _ (.loop _ _), c => c.Within S
  | .invoke _ _, a => a.Within S
  | .closure _ _, a => a.Within S

namespace Plan

/-- Each step of the plan keeps to the region, each code that it visits lies there, and so
does its result. -/
inductive KeepsTo (S : Set Item) {α : Type} (Q : α → Prop) : Plan α → Prop where
  | finish {a : α} : Q a → KeepsTo S Q (.finish a)
  | act {β : Type} {step : Run β} {next : β → Plan α} (P : β → Prop) :
      step.KeepsTo S P → (∀ b, P b → KeepsTo S Q (next b)) → KeepsTo S Q (.act step next)
  | call {part depth : Nat} {code : Code} {next : code.Result → Plan α} :
      code.Within S → (∀ a, code.ResultWithin S a → KeepsTo S Q (next a)) →
      KeepsTo S Q (.call part depth code next)

namespace KeepsTo

variable {α β : Type} {P : α → Prop} {Q : β → Prop}

theorem pure {a : α} (ha : P a) : KeepsTo S P (pure a) := finish ha

theorem lift {step : Run α} (h : step.KeepsTo S P) : KeepsTo S P (Plan.lift step) :=
  act P h fun _ ha => finish ha

theorem bind {p : Plan α} {f : α → Plan β} (hp : KeepsTo S P p)
    (hf : ∀ a, P a → KeepsTo S Q (f a)) : KeepsTo S Q (p >>= f) := by
  induction hp with
  | finish ha => exact hf _ ha
  | act P' hstep _ ih => exact act P' hstep ih
  | call hcode _ ih => exact call hcode ih

theorem ite {c : Prop} [Decidable c] {p q : Plan α} (hp : KeepsTo S P p) (hq : KeepsTo S P q) :
    KeepsTo S P (if c then p else q) := by
  split
  · exact hp
  · exact hq

/-- The visit of a code in the region. -/
theorem visit {part depth : Nat} (code : Code) (hcode : code.Within S) :
    KeepsTo S (code.ResultWithin S) (Plan.call part depth code Plan.finish) :=
  call hcode fun _ ha => finish ha

/-- What a plan does keeps to the region, if its steps do and the evaluations that it calls. -/
theorem follow {child : (depth : Nat) → (code : Code) → Run code.Result}
    (hchild : ∀ depth code, code.Within S → (child depth code).KeepsTo S (code.ResultWithin S))
    {p : Plan α} (hp : KeepsTo S P p) : (p.follow child).KeepsTo S P := by
  induction hp with
  | finish ha => exact .pure ha
  | act P' hstep _ ih => exact hstep.bind ih
  | call hcode _ ih => exact (hchild _ _ hcode).bind ih

end KeepsTo

end Plan

section

variable (settings : Settings) (depth : Nat) {env : EnvId} (he : .env env ∈ S)
include he

/-- One level of the evaluation of an expression keeps to the region. -/
theorem Expr.plan_keepsTo (e : Expr Binding) :
    (e.plan settings depth env).KeepsTo S (Value.Within S) := by
  have hexpr : ∀ (part : Nat) (e : Expr Binding),
      (Plan.expr part depth env e).KeepsTo S (Value.Within S) := fun _ e =>
    .visit (.node env (.expr e)) he
  have hexprs : ∀ (part : Nat) (es : List (Expr Binding)),
      (Plan.exprs part depth env es).KeepsTo S (fun values => ∀ a ∈ values, a.Within S) :=
    fun _ es => .visit (.node env (.exprs es)) he
  cases e with
  | literal value => exact .pure (Value.plain_ofLiteral value).within
  | grouping inner => exact hexpr _ _
  | unary op line operand =>
    exact (hexpr _ _).bind fun _ _ => .lift (.orFail _ fun _ => UnaryOp.plain_of_apply)
  | binary left op line right =>
    exact (hexpr _ _).bind fun _ _ => (hexpr _ _).bind fun _ _ =>
      .lift (.orFail _ fun _ => BinaryOp.plain_of_apply)
  | logical left op line right =>
    exact (hexpr _ _).bind fun _ ha => .ite (.pure ha) (hexpr _ _)
  | «variable» target => exact .lift (.read settings he _ _)
  | assign target value =>
    exact (hexpr _ _).bind fun _ ha => (Plan.KeepsTo.lift (.write settings he _ _ ha)).bind
      fun _ _ => .pure ha
  | call callee line arguments =>
    exact (hexpr _ _).bind fun f hf => (hexprs _ _).bind fun values hvalues =>
      (Plan.KeepsTo.lift (.checkCall settings depth f _ _)).bind fun _ _ =>
        .visit (.invoke f values) ⟨hf, hvalues⟩
  | get object property =>
    refine (hexpr _ _).bind fun a ha => ?_
    split
    · exact .lift (.getProperty ha _)
    · exact .lift (.fail _ _)
  | set object field value =>
    refine (hexpr _ _).bind fun a ha => ?_
    split
    · exact (hexpr _ _).bind fun _ hv => (Plan.KeepsTo.lift (.setField ha.1 _ hv)).bind
        fun _ _ => .pure hv
    · exact .lift (.fail _ _)
  | this line binding => exact .lift (.read settings he _ _)
  | super line method binding => exact .lift (.getSuper he _ _)
  | lambda line parameters body => exact .lift (.newFunction he)

/-- One level of the execution of a statement keeps to the region. -/
theorem Stmt.plan_keepsTo (s : Stmt Binding) :
    (s.plan settings depth env).KeepsTo S (Completion.Within S) := by
  have hexpr : ∀ (part : Nat) (e : Expr Binding),
      (Plan.expr part depth env e).KeepsTo S (Value.Within S) := fun _ e =>
    .visit (.node env (.expr e)) he
  have hdone : ∀ {step : Run Unit}, step.KeepsTo S (fun _ => True) →
      (do let _ ← Plan.lift step; return .normal : Plan Completion).KeepsTo S
        (Completion.Within S) :=
    fun hstep => (Plan.KeepsTo.lift hstep).bind fun _ _ => .pure trivial
  cases s with
  | expression value => exact (hexpr _ _).bind fun _ _ => .pure trivial
  | print value => exact (hexpr _ _).bind fun _ _ => hdone (.emit _)
  | var name initializer =>
    cases initializer with
    | none => exact hdone (.declareVariable settings he _ trivial)
    | some value =>
      exact (hexpr _ _).bind fun _ ha => hdone (.declareVariable settings he _ ha)
  | block body =>
    exact (Plan.KeepsTo.lift (.newEnv he fun _ _ hx => by cases hx)).bind fun inner hinner =>
      .visit (.node inner (.stmts body)) hinner
  | ifStmt condition thenBranch elifs elseBranch =>
    exact (hexpr _ _).bind fun _ _ => (Plan.KeepsTo.lift (.note settings 3 _)).bind fun _ _ =>
      .ite (.visit (.node env (.stmt thenBranch)) he)
        (.visit (.node env (.elifs elifs elseBranch)) he)
  | whileStmt condition body => exact .visit (.node env (.loop condition body)) he
  | functionDecl f => exact hdone (.declareFunction settings he f)
  | returnStmt line value =>
    cases value with
    | none => exact .pure trivial
    | some value => exact (hexpr _ _).bind fun _ ha => .pure ha
  | breakStmt line => exact .pure trivial
  | classDecl name superclass methods => exact hdone (.declareClass settings he _ _ _)

end

/-- One level of the evaluation of a code in a region keeps to it. -/
theorem Code.plan_keepsTo (settings : Settings) (depth : Nat) {code : Code}
    (hcode : code.Within S) : (code.plan settings depth).KeepsTo S (code.ResultWithin S) := by
  cases code with
  | node env n =>
    have hexpr : ∀ (part : Nat) (e : Expr Binding),
        (Plan.expr part depth env e).KeepsTo S (Value.Within S) := fun _ e =>
      .visit (.node env (.expr e)) hcode
    have hstmt : ∀ (part : Nat) (s : Stmt Binding),
        (Plan.stmt part depth env s).KeepsTo S (Completion.Within S) := fun _ s =>
      .visit (.node env (.stmt s)) hcode
    cases n with
    | expr e => exact e.plan_keepsTo settings depth hcode
    | exprs es =>
      cases es with
      | nil => exact .pure nofun
      | cons e rest =>
        refine (hexpr _ _).bind fun a ha =>
          (Plan.KeepsTo.visit (.node env (.exprs rest)) hcode).bind fun values hvalues =>
            .pure ?_
        exact List.forall_mem_cons.mpr ⟨ha, hvalues⟩
    | stmt s => exact s.plan_keepsTo settings depth hcode
    | stmts body =>
      cases body with
      | nil => exact .pure trivial
      | cons s rest =>
        refine (hstmt _ _).bind fun completion hc => ?_
        split
        · exact .visit (.node env (.stmts rest)) hcode
        · exact .pure hc
    | elifs branches elseBranch =>
      rcases branches with _ | ⟨⟨condition, body⟩, rest⟩
      · cases elseBranch with
        | none => exact .pure trivial
        | some s => exact hstmt _ _
      · exact (hexpr _ _).bind fun _ _ =>
          .ite (hstmt _ _) (.visit (.node env (.elifs rest elseBranch)) hcode)
    | loop condition body =>
      refine (hexpr _ _).bind fun _ _ => (Plan.KeepsTo.lift (.note settings 3 _)).bind fun _ _ =>
        .ite (.pure trivial) ((hstmt _ _).bind fun completion hc => ?_)
      split
      · exact .visit (.node env (.loop condition body)) hcode
      · exact .pure trivial
      · exact .pure hc
  | invoke callee values =>
    obtain ⟨hcallee, hvalues⟩ := hcode
    show (Plan.ofCall settings depth callee values).KeepsTo S (Value.Within S)
    unfold Plan.ofCall
    split
    · rename_i id code
      exact .visit (.closure code values) ⟨hcallee, hvalues⟩
    · rename_i definition
      refine (Plan.KeepsTo.lift .newObject).bind fun id hid => ?_
      have hobject : (Value.object id definition).Within S := ⟨hid, hcallee⟩
      split
      · exact .pure hobject
      · rename_i method hmethod
        exact (Plan.KeepsTo.lift (.bindMethod (hobject.2.findMethod? hmethod) hobject)).bind
          fun code hscope => (Plan.KeepsTo.visit (.closure code values)
            ⟨hscope, hvalues⟩).bind fun _ _ => .pure hobject
    · exact .lift (.readClock settings)
    · exact .pure trivial
  | closure code values =>
    obtain ⟨hscope, hvalues⟩ := hcode
    have hslots : ∀ x a, (argumentSlots code.parameters values ∅).get? x = some a → a.Within S :=
      fun _ _ => within_argumentSlots _ _ ∅ hvalues fun _ _ hx => by cases hx
    exact (Plan.KeepsTo.lift (.newEnv hscope hslots)).bind fun env henv =>
      (Plan.KeepsTo.visit (.node env (.stmts code.body)) henv).bind fun _ hc =>
        .lift (.callValue hscope hc)

/-- The evaluation of a code in a closed region keeps to it. -/
theorem Run.run_keepsTo (settings : Settings) (fuel : Nat) : ∀ (depth : Nat) (code : Code),
    code.Within S → (code.run settings fuel depth).KeepsTo S (code.ResultWithin S) := by
  induction fuel with
  | zero =>
    intro depth code _
    rw [Code.run_zero]
    exact .throw _
  | succ fuel ih =>
    intro depth code hcode
    rw [Code.run_succ]
    exact (code.plan_keepsTo settings depth hcode).follow ih

end ClassScript
