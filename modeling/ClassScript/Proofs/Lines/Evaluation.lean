import ClassScript.Proofs.Evaluation.Steps
import ClassScript.Proofs.Lines.Heap

/-!
# Evaluation on other lines

An evaluation *mirrors* another one if it does the same on other lines and after other
events: it completes with the same value or aborts for the same reason, adds the same
events, and leaves the same heap, always with the lines changed (`Run.Mirrors`).

Evaluation on a relined program mirrors that on the program itself
(`Run.program_mirrors`).  The lemmas before that say so for each step, and the induction
on the fuel takes a step of each kind of evaluation (`Run.Mirrored.succ`).
-/

namespace ClassScript

/-- A failure on another line. -/
def Failure.reline (f : Nat → Nat) (failure : Failure) : Failure :=
  { failure with line := f failure.line }

/-- The end of an evaluation on another line. -/
def Abort.reline (f : Nat → Nat) : Abort → Abort
  | .failure cause => .failure (cause.reline f)
  | .access error => .access error
  | .outOfFuel => .outOfFuel

/-- How a statement completes, on other lines. -/
def Completion.reline (f : Nat → Nat) : Completion → Completion
  | .returned value => .returned (value.reline f)
  | completion => completion

/-- A machine with its heap on other lines and with its events after other ones. -/
def Machine.reline (f : Nat → Nat) (before : Array Event) (m : Machine) : Machine where
  heap := m.heap.reline f
  readings := m.readings
  events := before ++ m.events

/-- Whether a note is written does not depend on lines. -/
theorem Machine.noted_reline (f : Nat → Nat) (before : Array Event) (m : Machine)
    (settings : Settings) (level : Nat) (line : String) :
    (m.reline f before).noted settings level line =
      (m.noted settings level line).reline f before := by
  unfold Machine.noted
  split
  · simp [Machine.reline]
  · rfl

/-- The same parameters get the same arguments. -/
theorem argumentSlots_reline (f : Nat → Nat) : ∀ (names : List Name) (values : List Value)
    (slots : Slots Value),
    Run.argumentSlots (names.map (Name.reline f)) (values.map (Value.reline f))
        (slots.map (Value.reline f)) =
      (Run.argumentSlots names values slots).map (Value.reline f)
  | name :: names, value :: values, slots => by
      simp only [List.map_cons, Run.argumentSlots, Name.text_reline, ← Slots.map_set]
      exact argumentSlots_reline f names values _
  | [], _, _ => by simp [Run.argumentSlots]
  | _ :: _, [], _ => by simp [Run.argumentSlots]

/-- A class on other lines has the same methods, on other lines. -/
theorem classMethods_reline (f : Nat → Nat) (scope : EnvId) :
    ∀ (methods : List (Function Binding)) (slots : Slots Closure),
      Run.classMethods scope (relineFunctions f methods) (slots.map (Closure.reline f)) =
        (Run.classMethods scope methods slots).map (Closure.reline f)
  | [], _ => rfl
  | .mk name parameters body :: rest, slots => by
      rw [Run.classMethods, ← classMethods_reline f scope rest, Slots.map_set]
      rfl

/-- The note about a new class tells no lines. -/
theorem classNote_reline (f : Nat → Nat) (definition : Class) :
    Run.classNote (definition.reline f) = Run.classNote definition := by
  rcases definition with ⟨id, name, _ | parent, methods⟩
  · simp [Run.classNote, Class.reline, Class.name, Class.superclass, Class.methods]
  · have hparent := Class.name_reline f parent
    simp [Run.classNote, Class.reline, Class.superclass, Class.methods, hparent]
    rfl

namespace Run

/-! ## Mirroring -/

/-- The run `x'` does what `x` does, on other lines and after other events. -/
def Mirrors (f : Nat → Nat) (before : Array Event) {α β : Type} (φ : α → β) (x : Run α)
    (x' : Run β) : Prop :=
  ∀ m, x' (m.reline f before) =
    match x m with
    | .ok a m' => .ok (φ a) (m'.reline f before)
    | .error e m' => .error (e.reline f) (m'.reline f before)

variable {f : Nat → Nat} {before : Array Event}

namespace Mirrors

variable {α α' β β' : Type} {φ : α → α'} {ψ : β → β'}

theorem pure {a : α} {a' : α'} (h : φ a = a') : Mirrors f before φ (pure a) (Pure.pure a') := by
  subst h
  exact fun _ => rfl

theorem throw (e : Abort) : Mirrors f before φ (throw e) (throw (e.reline f)) := fun _ => rfl

/-- A failure names the line that its cause has moved to. -/
theorem fail (error : RuntimeError) (line : Nat) :
    Mirrors f before φ (fail error line) (fail error (f line)) := fun _ => rfl

/-- Steps in sequence mirror steps in sequence. -/
theorem bind {x : Run α} {x' : Run α'} {y : α → Run β} {y' : α' → Run β'}
    (hx : Mirrors f before φ x x') (hy : ∀ a, Mirrors f before ψ (y a) (y' (φ a))) :
    Mirrors f before ψ (x >>= y) (x' >>= y') := by
  intro m
  rw [bind_apply, bind_apply, hx m]
  cases x m with
  | ok a m' => exact hy a m'
  | error e m' => rfl

/-- The same branch is taken on both sides. -/
theorem ite {c : Prop} [Decidable c] {x y : Run α} {x' y' : Run α'}
    (hx : Mirrors f before φ x x') (hy : Mirrors f before φ y y') :
    Mirrors f before φ (if c then x else y) (if c then x' else y') := by
  split
  · exact hx
  · exact hy

/-- An operation fails for the same reason, on its own line. -/
theorem orFail (line : Nat) (x : Except RuntimeError α) :
    Mirrors f before φ (orFail line x) (Run.orFail (f line) (x.map φ)) := by
  cases x with
  | ok a => exact pure rfl
  | error e => exact fail e line

theorem get : Mirrors f before (Machine.reline f before) get get := fun _ => rfl

/-- An event comes after the same events, behind the other ones. -/
theorem emit (event : Event) : Mirrors f before id (emit event) (Run.emit event) := by
  intro m
  show EStateM.Result.ok () _ = .ok () _
  simp [Machine.reline]

theorem note (settings : Settings) (level : Nat) (line : String) :
    Mirrors f before id
      (if level ≤ settings.verbosity then Run.emit (.noted line) else Pure.pure ())
      (if level ≤ settings.verbosity then Run.emit (.noted line) else Pure.pure ()) :=
  ite (emit _) fun _ => rfl

/-- What follows a note mirrors what follows it on other lines, whether it is written or not. -/
theorem noteBind (settings : Settings) (level : Nat) (line : String) {x : Run α} {x' : Run α'}
    (hx : Mirrors f before φ x x') :
    Mirrors f before φ
      (if level ≤ settings.verbosity then Run.emit (.noted line) >>= fun _ => x else x)
      (if level ≤ settings.verbosity then Run.emit (.noted line) >>= fun _ => x' else x') :=
  ite ((emit _).bind fun _ => hx) hx

/-! ## Steps -/

/-- A new environment has the same number. -/
theorem newEnv (parent : EnvId) (slots : Slots Value) :
    Mirrors f before id (newEnv parent slots)
      (Run.newEnv parent (slots.map (Value.reline f))) := by
  intro m
  simp [newEnv_apply, Machine.reline, Machine.pushEnv, Heap.reline_pushEnv]

theorem newObject : Mirrors f before id newObject newObject := by
  intro m
  simp [Run.newObject, Machine.reline, Heap.reline_pushObject]

theorem newId : Mirrors f before id newId newId := fun _ => rfl

/-- A variable is set in the same environment. -/
theorem define (env : EnvId) (name : String) (value : Value) :
    Mirrors f before id (define env name value) (Run.define env name (value.reline f)) := by
  intro m
  simp [define_apply, Machine.reline, Machine.define, Heap.reline_define]

/-- A field is set in the same object. -/
theorem setField (object : ObjectId) (name : String) (value : Value) :
    Mirrors f before id (modifyHeap (·.setField object name value))
      (modifyHeap (·.setField object name (value.reline f))) := by
  intro m
  show EStateM.Result.ok () _ = .ok () _
  simp [Machine.reline, Heap.reline_setField]

theorem readClock (settings : Settings) :
    Mirrors f before (Value.reline f) (readClock settings) (Run.readClock settings) :=
  fun _ => rfl

/-! ### Variables -/

/-- A variable is found in the same environment, or not at all. -/
theorem readByName (env : EnvId) (name : Name) :
    Mirrors f before (Value.reline f) (readByName env name)
      (Run.readByName env (name.reline f)) := by
  intro m
  simp only [Run.readByName, Machine.reline, Name.text_reline, Heap.get?_reline]
  cases m.heap.get? env name.text <;> rfl

/-- A variable is assigned to in the environment in which it is found. -/
theorem writeByName (env : EnvId) (name : Name) (value : Value) :
    Mirrors f before id (writeByName env name value)
      (Run.writeByName env (name.reline f) (value.reline f)) := by
  intro m
  simp only [Run.writeByName, Machine.reline, Name.text_reline, Heap.holder?_reline]
  cases m.heap.holder? name.text (env.index + 1) env with
  | none => rfl
  | some holder => simp [Heap.reline_define]

/-- A distance leads to the same environment, or fails for the same reason. -/
theorem readAt (env : EnvId) (distance : Int) (name : String) :
    Mirrors f before (Value.reline f) (readAt env distance name)
      (Run.readAt env distance name) := by
  intro m
  simp only [Run.readAt, Machine.reline, Heap.getAt_reline]
  cases m.heap.getAt env distance name <;> rfl

theorem writeAt (env : EnvId) (distance : Int) (name : String) (value : Value) :
    Mirrors f before id (writeAt env distance name value)
      (Run.writeAt env distance name (value.reline f)) := by
  intro m
  simp only [Run.writeAt, Machine.reline, Heap.ancestorEnv_reline]
  cases m.heap.ancestorEnv env distance with
  | error e => rfl
  | ok outer => simp [Heap.reline_define]

/-- A variable is read in the same way, by its distance or by its name. -/
theorem read (settings : Settings) (env : EnvId) (name : Name) (binding : Binding) :
    Mirrors f before (Value.reline f) (read settings env name binding)
      (Run.read settings env (name.reline f) binding) := by
  unfold Run.read
  split
  · exact readAt _ _ _
  · exact readByName _ _
  · exact readByName _ _

/-- A variable is assigned to in the same way, by its distance or by its name. -/
theorem write (settings : Settings) (env : EnvId) (name : Name) (binding : Binding)
    (value : Value) :
    Mirrors f before id (write settings env name binding value)
      (Run.write settings env (name.reline f) binding (value.reline f)) := by
  unfold Run.write
  split
  · exact writeAt _ _ _ _
  · exact writeByName _ _ _
  · exact writeByName _ _ _

/-! ### Functions, methods and properties -/

theorem newFunction (code : Closure) :
    Mirrors f before (Value.reline f) (newFunction code) (Run.newFunction (code.reline f)) :=
  newId.bind fun _ => pure rfl

/-- A method is bound to the object in an environment of its own. -/
theorem bindMethod (method : Closure) (object : Value) :
    Mirrors f before (Closure.reline f) (bindMethod method object)
      (Run.bindMethod (method.reline f) (object.reline f)) :=
  (newEnv _ _).bind fun _ => pure rfl

theorem methodValue (method : Closure) (object : Value) :
    Mirrors f before (Value.reline f) (methodValue method object)
      (Run.methodValue (method.reline f) (object.reline f)) :=
  (bindMethod _ _).bind fun _ => newFunction _

/-- A field comes before a method, which comes before a failure. -/
theorem getProperty (object : ObjectId) (definition : Class) (property : Name) :
    Mirrors f before (Value.reline f) (getProperty object definition property)
      (Run.getProperty object (definition.reline f) (property.reline f)) := by
  refine get.bind fun m => ?_
  simp only [Machine.reline, Name.text_reline, Heap.field?_reline, Class.findMethod?_reline]
  cases m.heap.field? object property.text with
  | some value => exact pure rfl
  | none =>
    cases definition.findMethod? property.text with
    | some method => exact methodValue method (.object object definition)
    | none => exact fail _ _

/-- The search for a method of the superclass finds the same one. -/
theorem getSuper (env : EnvId) (binding : Binding) (method : Name) :
    Mirrors f before (Value.reline f) (getSuper env binding method)
      (Run.getSuper env binding (method.reline f)) := by
  cases binding with
  | global => exact throw _
  | «local» distance =>
    refine (readAt _ _ _).bind fun parent => ?_
    cases parent with
    | classRef parent =>
      refine (readAt _ _ _).bind fun object => ?_
      simp only [Name.text_reline, Class.findMethod?_reline]
      cases parent.findMethod? method.text with
      | some code => exact methodValue code object
      | none => exact fail _ _
    | _ => exact throw _

/-- The value of a call is that of `return`, or the object in an initializer. -/
theorem callValue (code : Closure) (completion : Completion) :
    Mirrors f before (Value.reline f) (callValue code completion)
      (Run.callValue (code.reline f) (completion.reline f)) := by
  refine ite (readAt _ _ _) ?_
  cases completion <;> exact pure rfl

/-! ### Declarations and calls -/

/-- A superclass has to be a class on both sides. -/
theorem superclassOf (settings : Settings) (env : EnvId)
    (superclass : Option (Reference Binding)) :
    Mirrors f before (Option.map (Class.reline f)) (superclassOf settings env superclass)
      (Run.superclassOf settings env (superclass.map (Reference.reline f))) := by
  cases superclass with
  | none => exact pure rfl
  | some parent =>
    refine (read _ _ _ _).bind fun a => ?_
    cases a with
    | classRef definition => exact pure rfl
    | _ => exact fail _ _

theorem methodScope (env : EnvId) (parent : Option Class) :
    Mirrors f before id (methodScope env parent)
      (Run.methodScope env (parent.map (Class.reline f))) := by
  cases parent with
  | none => exact pure rfl
  | some parent => exact newEnv _ _

/-- A declaration makes the same class, with its methods on other lines. -/
theorem declareClass (settings : Settings) (env : EnvId) (name : Name)
    (superclass : Option (Reference Binding)) (methods : List (Function Binding)) :
    Mirrors f before id (declareClass settings env name superclass methods)
      (Run.declareClass settings env (name.reline f) (superclass.map (Reference.reline f))
        (relineFunctions f methods)) := by
  refine (superclassOf _ _ _).bind fun parent => (define _ _ .nil).bind fun _ =>
    (methodScope _ _).bind fun scope => newId.bind fun number => ?_
  have hclass : (Class.mk number name.text parent (classMethods scope methods ∅)).reline f =
      .mk number name.text (parent.map (Class.reline f))
        (classMethods scope (relineFunctions f methods) ∅) := by
    rw [← Slots.map_empty (Closure.reline f), classMethods_reline]
    cases parent <;> rfl
  simp only [id, Name.text_reline, ← hclass, classNote_reline]
  exact (define _ _ _).bind fun _ => note _ _ _

/-- The note about a variable tells its value, which shows no lines. -/
theorem declareVariable (settings : Settings) (env : EnvId) (name : Name) (value : Value) :
    Mirrors f before id (declareVariable settings env name value)
      (Run.declareVariable settings env (name.reline f) (value.reline f)) := by
  refine (define _ _ _).bind fun _ => ?_
  simp only [variableNote, Name.text_reline, Value.typeName_reline, Value.text_reline]
  exact note _ _ _

theorem declareFunction (settings : Settings) (env : EnvId) (declaration : Function Binding) :
    Mirrors f before id (declareFunction settings env declaration)
      (Run.declareFunction settings env (declaration.reline f)) := by
  cases declaration with
  | mk name parameters body =>
    exact (newFunction ⟨some name.text, parameters, body, env, false⟩).bind fun _ =>
      (define _ _ _).bind fun _ => note _ _ _

/-- A call is refused for the same reason, on its own line. -/
theorem checkCall (settings : Settings) (depth : Nat) (callee : Value) (count line : Nat) :
    Mirrors f before id (checkCall settings depth callee count line)
      (Run.checkCall settings depth (callee.reline f) count (f line)) := by
  intro m
  simp only [checkCall_apply, Value.arity?_reline, callNote, Value.text_reline,
    Machine.noted_reline]
  cases callee.arity? with
  | none => rfl
  | some arity =>
    dsimp only
    split
    · split <;> rfl
    · rfl

end Mirrors

/-! ## Evaluation -/

/-- With the given fuel, evaluation on other lines mirrors evaluation. -/
structure Mirrored (settings : Settings) (f : Nat → Nat) (before : Array Event) (fuel : Nat) :
    Prop where
  evaluate : ∀ depth env e, Mirrors f before (Value.reline f)
    (evaluate settings fuel depth env e) (evaluate settings fuel depth env (e.reline f))
  evaluateAll : ∀ depth env es, Mirrors f before (List.map (Value.reline f))
    (evaluateAll settings fuel depth env es)
    (evaluateAll settings fuel depth env (relineExprs f es))
  invoke : ∀ depth callee values, Mirrors f before (Value.reline f)
    (invoke settings fuel depth callee values)
    (invoke settings fuel depth (callee.reline f) (values.map (Value.reline f)))
  runCode : ∀ depth code values, Mirrors f before (Value.reline f)
    (runCode settings fuel depth code values)
    (runCode settings fuel depth (code.reline f) (values.map (Value.reline f)))
  execute : ∀ depth env s, Mirrors f before (Completion.reline f)
    (execute settings fuel depth env s) (execute settings fuel depth env (s.reline f))
  executeAll : ∀ depth env body, Mirrors f before (Completion.reline f)
    (executeAll settings fuel depth env body)
    (executeAll settings fuel depth env (relineStmts f body))
  executeElifs : ∀ depth env branches elseBranch, Mirrors f before (Completion.reline f)
    (executeElifs settings fuel depth env branches elseBranch)
    (executeElifs settings fuel depth env (relineElifs f branches)
      (elseBranch.map (Stmt.reline f)))
  executeLoop : ∀ depth env condition body, Mirrors f before (Completion.reline f)
    (executeLoop settings fuel depth env condition body)
    (executeLoop settings fuel depth env (condition.reline f) (body.reline f))

namespace Mirrored

variable {settings : Settings} {fuel : Nat}

/-- Without fuel, both evaluations end at once. -/
theorem zero : Mirrored settings f before 0 := by
  constructor <;> intros <;>
    simp only [Run.evaluate, Run.evaluateAll, Run.invoke, Run.runCode, Run.execute, Run.executeAll,
      Run.executeElifs, Run.executeLoop]
  all_goals exact .throw .outOfFuel

variable (h : Mirrored settings f before fuel) (depth : Nat) (env : EnvId)
include h

/-- An expression takes the same steps on other lines. -/
theorem evaluate_succ (e : Expr Binding) :
    Mirrors f before (Value.reline f) (Run.evaluate settings (fuel + 1) depth env e)
      (Run.evaluate settings (fuel + 1) depth env (e.reline f)) := by
  cases e <;> simp only [Expr.reline, Run.evaluate]
  case literal value => exact .pure (Value.reline_ofLiteral f value)
  case grouping inner => exact h.evaluate depth env inner
  case unary op line operand =>
    refine (h.evaluate depth env operand).bind fun a => ?_
    rw [UnaryOp.apply_reline]
    exact .orFail line _
  case binary left op line right =>
    refine (h.evaluate depth env left).bind fun a => (h.evaluate depth env right).bind fun b => ?_
    rw [BinaryOp.apply_reline]
    exact .orFail line _
  case logical left op line right =>
    refine (h.evaluate depth env left).bind fun a => ?_
    rw [LogicalOp.decides_reline]
    exact .ite (.pure rfl) (h.evaluate depth env right)
  case «variable» target => exact .read settings env target.name target.binding
  case assign target value =>
    exact (h.evaluate depth env value).bind fun a =>
      (Mirrors.write settings env target.name target.binding a).bind fun _ => .pure rfl
  case call callee line arguments =>
    refine (h.evaluate depth env callee).bind fun a =>
      (h.evaluateAll depth env arguments).bind fun values => ?_
    rw [List.length_map]
    exact (Mirrors.checkCall settings depth a values.length line).bind fun _ =>
      h.invoke (depth + 1) a values
  case get object property =>
    refine (h.evaluate depth env object).bind fun a => ?_
    cases a with
    | object id definition => exact .getProperty id definition property
    | _ => exact .fail _ _
  case set object field value =>
    refine (h.evaluate depth env object).bind fun a => ?_
    cases a with
    | object id definition =>
      exact (h.evaluate depth env value).bind fun a =>
        (Mirrors.setField id field.text a).bind fun _ => .pure rfl
    | _ => exact .fail _ _
  case this line binding => exact .read settings env ⟨"this", line⟩ binding
  case super line method binding => exact .getSuper env binding method
  case lambda line parameters body => exact .newFunction ⟨none, parameters, body, env, false⟩

theorem evaluateAll_succ (es : List (Expr Binding)) :
    Mirrors f before (List.map (Value.reline f)) (Run.evaluateAll settings (fuel + 1) depth env es)
      (Run.evaluateAll settings (fuel + 1) depth env (relineExprs f es)) := by
  cases es <;> simp only [relineExprs, Run.evaluateAll]
  case nil => exact .pure rfl
  case cons e rest =>
    exact (h.evaluate depth env e).bind fun a =>
      (h.evaluateAll depth env rest).bind fun values => .pure rfl

/-- A checked call runs the same function, or makes an object of the same class. -/
theorem invoke_succ (callee : Value) (values : List Value) :
    Mirrors f before (Value.reline f) (Run.invoke settings (fuel + 1) depth callee values)
      (Run.invoke settings (fuel + 1) depth (callee.reline f) (values.map (Value.reline f))) := by
  cases callee <;> simp only [Value.reline, Run.invoke]
  case function id code => exact h.runCode depth code values
  case native id function =>
    cases function
    simp only [Run.invoke]
    exact .readClock settings
  case classRef definition =>
    refine Mirrors.newObject.bind fun object => ?_
    rw [Class.findMethod?_reline]
    cases definition.findMethod? initializerName with
    | none => exact .pure rfl
    | some method =>
      exact (Mirrors.bindMethod method (.object object definition)).bind fun code =>
        (h.runCode depth code values).bind fun _ => .pure rfl
  all_goals exact .pure rfl

/-- The code of a function starts with the same arguments. -/
theorem runCode_succ (code : Closure) (values : List Value) :
    Mirrors f before (Value.reline f) (Run.runCode settings (fuel + 1) depth code values)
      (Run.runCode settings (fuel + 1) depth (code.reline f) (values.map (Value.reline f))) := by
  simp only [Run.runCode]
  rw [show argumentSlots (code.reline f).parameters (values.map (Value.reline f)) ∅ =
    (argumentSlots code.parameters values ∅).map (Value.reline f) from
      argumentSlots_reline f code.parameters values ∅]
  exact (Mirrors.newEnv _ _).bind fun env =>
    (h.executeAll depth env code.body).bind fun completion => .callValue code completion

/-- A statement takes the same steps on other lines. -/
theorem execute_succ (s : Stmt Binding) :
    Mirrors f before (Completion.reline f) (Run.execute settings (fuel + 1) depth env s)
      (Run.execute settings (fuel + 1) depth env (s.reline f)) := by
  cases s
  case expression value =>
    simp only [Stmt.reline, Run.execute]
    exact (h.evaluate depth env value).bind fun _ => .pure rfl
  case print value =>
    simp only [Stmt.reline, Run.execute]
    refine (h.evaluate depth env value).bind fun a => ?_
    rw [Value.text_reline]
    exact (Mirrors.emit _).bind fun _ => .pure rfl
  case var name initializer =>
    cases initializer <;> simp only [Stmt.reline, Run.execute]
    case none => exact (Mirrors.declareVariable settings env name .nil).bind fun _ => .pure rfl
    case some value =>
      exact (h.evaluate depth env value).bind fun a =>
        (Mirrors.declareVariable settings env name a).bind fun _ => .pure rfl
  case block body =>
    simp only [Stmt.reline, Run.execute]
    exact (Mirrors.newEnv env ∅).bind fun inner => h.executeAll depth inner body
  case ifStmt condition thenBranch elifs elseBranch =>
    simp only [Stmt.reline_ifStmt, Run.execute]
    refine (h.evaluate depth env condition).bind fun a => ?_
    simp only [conditionNote, Value.text_reline, Value.isTruthy_reline]
    exact .noteBind settings 3 _
      (.ite (h.execute depth env thenBranch) (h.executeElifs depth env elifs elseBranch))
  case whileStmt condition body =>
    simp only [Stmt.reline, Run.execute]
    exact h.executeLoop depth env condition body
  case functionDecl declaration =>
    simp only [Stmt.reline, Run.execute]
    exact (Mirrors.declareFunction settings env declaration).bind fun _ => .pure rfl
  case returnStmt line value =>
    cases value <;> simp only [Stmt.reline, Run.execute]
    case none => exact .pure rfl
    case some value => exact (h.evaluate depth env value).bind fun _ => .pure rfl
  case breakStmt line =>
    simp only [Stmt.reline, Run.execute]
    exact .pure rfl
  case classDecl name superclass methods =>
    simp only [Stmt.reline, Run.execute]
    exact (Mirrors.declareClass settings env name superclass methods).bind fun _ => .pure rfl

/-- Statements stop at the same one of them. -/
theorem executeAll_succ (body : List (Stmt Binding)) :
    Mirrors f before (Completion.reline f) (Run.executeAll settings (fuel + 1) depth env body)
      (Run.executeAll settings (fuel + 1) depth env (relineStmts f body)) := by
  cases body <;> simp only [relineStmts, Run.executeAll]
  case nil => exact .pure rfl
  case cons s rest =>
    refine (h.execute depth env s).bind fun completion => ?_
    cases completion with
    | normal => exact h.executeAll depth env rest
    | broke => exact .pure rfl
    | returned value => exact .pure rfl

/-- The same branch of a choice is taken. -/
theorem executeElifs_succ (branches : List (Elif Binding)) (elseBranch : Option (Stmt Binding)) :
    Mirrors f before (Completion.reline f)
      (Run.executeElifs settings (fuel + 1) depth env branches elseBranch)
      (Run.executeElifs settings (fuel + 1) depth env (relineElifs f branches)
        (elseBranch.map (Stmt.reline f))) := by
  rcases branches with _ | ⟨⟨condition, body⟩, rest⟩
  · cases elseBranch <;> simp only [relineElifs, Run.executeElifs, Option.map]
    case none => exact .pure rfl
    case some s => exact h.execute depth env s
  · simp only [relineElifs, Run.executeElifs]
    refine (h.evaluate depth env condition).bind fun a => ?_
    rw [Value.isTruthy_reline]
    exact .ite (h.execute depth env body) (h.executeElifs depth env rest elseBranch)

/-- A loop takes the same rounds. -/
theorem executeLoop_succ (condition : Expr Binding) (body : Stmt Binding) :
    Mirrors f before (Completion.reline f)
      (Run.executeLoop settings (fuel + 1) depth env condition body)
      (Run.executeLoop settings (fuel + 1) depth env (condition.reline f) (body.reline f)) := by
  simp only [Run.executeLoop]
  refine (h.evaluate depth env condition).bind fun a => ?_
  simp only [conditionNote, Value.text_reline, Value.isTruthy_reline]
  refine .noteBind settings 3 _ (.ite (.pure rfl) ?_)
  refine (h.execute depth env body).bind fun completion => ?_
  cases completion with
  | normal => exact h.executeLoop depth env condition body
  | broke => exact .pure rfl
  | returned value => exact .pure rfl

theorem succ : Mirrored settings f before (fuel + 1) where
  evaluate := h.evaluate_succ
  evaluateAll := h.evaluateAll_succ
  invoke := h.invoke_succ
  runCode := h.runCode_succ
  execute := h.execute_succ
  executeAll := h.executeAll_succ
  executeElifs := h.executeElifs_succ
  executeLoop := h.executeLoop_succ

end Mirrored

/-- Evaluation on other lines mirrors evaluation, with any fuel. -/
theorem mirrored (settings : Settings) (f : Nat → Nat) (before : Array Event) (fuel : Nat) :
    Mirrored settings f before fuel := by
  induction fuel with
  | zero => exact .zero
  | succ fuel ih => exact ih.succ

/-- A program on other lines does the same on other lines. -/
theorem program_mirrors (settings : Settings) (f : Nat → Nat) (before : Array Event) (fuel : Nat)
    (program : Program Binding) :
    Mirrors f before id (Run.program settings fuel program)
      (Run.program settings fuel (relineStmts f program)) := by
  induction program with
  | nil => exact .pure rfl
  | cons s rest ih =>
    exact ((mirrored settings f before fuel).execute 0 .globals s).bind fun _ => ih

end Run

end ClassScript
