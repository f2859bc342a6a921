import ClassScript.Proofs.Heap.Growth

/-!
# The steps of an evaluation

An evaluation changes its machine by steps of few kinds: it adds an event, reads
the clock, makes an environment, an object or a number, and sets a variable or a
field.  A relation between machines that holds of each kind of step, and that is
reflexive and transitive, is a `StepLaw`.  It relates the machine before a piece
of evaluation to the one after it, however the piece ends.  A `QuietLaw` leaves the
setting of variables and fields aside; it is a law of the pieces that set none but those
for which the relation holds.

The growth of the heap is such a law (`grows_stepLaw`).
-/

namespace ClassScript

/-- A report of a mistake or of a failure.  A program under way prints and notes, and
makes none. -/
def Event.IsReport : Event → Prop
  | .diagnosed _ | .failed _ => True
  | .printed _ | .noted _ => False

namespace Machine

/-- The machine with a new environment, which gets the number
`m.heap.nextEnv`. -/
def pushEnv (m : Machine) (parent : EnvId) (slots : Slots Value) : Machine :=
  { m with heap := m.heap.pushEnv (some parent) slots }

/-- The machine with a variable set. -/
def define (m : Machine) (env : EnvId) (name : String) (value : Value) : Machine :=
  { m with heap := m.heap.define env name value }

/-- The machine with the scope around the methods of a class, if the class has a
superclass. -/
def openClass (m : Machine) (env : EnvId) : Option Class → Machine
  | none => m
  | some parent => m.pushEnv env (Slots.single "super" (.classRef parent))

/-- The machine after a note that is written from the given level on. -/
def noted (m : Machine) (settings : Settings) (level : Nat) (line : String) : Machine :=
  if level ≤ settings.verbosity then { m with events := m.events.push (.noted line) } else m

@[simp] theorem heap_pushEnv (m : Machine) (parent : EnvId) (slots : Slots Value) :
    (m.pushEnv parent slots).heap = m.heap.pushEnv (some parent) slots := rfl

@[simp] theorem heap_define (m : Machine) (env : EnvId) (name : String) (value : Value) :
    (m.define env name value).heap = m.heap.define env name value := rfl

/-- A note leaves the heap as it is. -/
@[simp] theorem heap_noted (m : Machine) (settings : Settings) (level : Nat) (line : String) :
    (m.noted settings level line).heap = m.heap := by
  unfold noted
  split <;> rfl

end Machine

namespace Run

/-! ## Running pieces in sequence -/

theorem bind_apply {α β : Type} (x : Run α) (f : α → Run β) (m : Machine) :
    (x >>= f) m =
      match x m with
      | .ok a m' => f a m'
      | .error e m' => .error e m' := by
  cases h : x m <;> simp [bind, EStateM.bind, h]

theorem get_bind_apply {α : Type} (f : Machine → Run α) (m : Machine) :
    (get >>= f) m = f m m := rfl

theorem newEnv_apply (parent : EnvId) (slots : Slots Value) (m : Machine) :
    newEnv parent slots m = .ok m.heap.nextEnv (m.pushEnv parent slots) := rfl

/-- A note is written from its level on. -/
theorem note_apply (settings : Settings) (level : Nat) (line : String) (m : Machine) :
    (if level ≤ settings.verbosity then emit (.noted line) else pure () : Run Unit) m =
      .ok () (m.noted settings level line) := by
  unfold Machine.noted
  split <;> rfl

theorem note_bind_apply {α : Type} (settings : Settings) (level : Nat) (line : String)
    (x : Run α) (m : Machine) :
    (if level ≤ settings.verbosity then emit (.noted line) >>= fun _ => x else x) m =
      x (m.noted settings level line) := by
  unfold Machine.noted
  split <;> rfl

/-- Two steps in sequence complete just if both complete. -/
theorem bind_eq_ok {α β : Type} {x : Run α} {f : α → Run β} {m m'' : Machine} {b : β} :
    (x >>= f) m = .ok b m'' ↔ ∃ a m', x m = .ok a m' ∧ f a m' = .ok b m'' := by
  rw [bind_apply]
  cases hx : x m with
  | ok a m' => exact ⟨fun h => ⟨a, m', rfl, h⟩, fun ⟨_, _, he, h⟩ => by cases he; exact h⟩
  | error e m' => exact ⟨(nomatch ·), fun ⟨_, _, he, _⟩ => nomatch he⟩

/-! ## Declarations -/

theorem define_apply (env : EnvId) (name : String) (value : Value) (m : Machine) :
    define env name value m = .ok () (m.define env name value) := rfl

theorem newFunction_apply (code : Closure) (m : Machine) :
    newFunction code m = .ok (.function m.heap.nextId code) { m with heap := m.heap.takeId } := rfl

theorem declareVariable_apply (settings : Settings) (env : EnvId) (name : Name) (value : Value)
    (m : Machine) :
    declareVariable settings env name value m =
      .ok () ((m.define env name.text value).noted settings 2 (variableNote name value)) :=
  note_apply ..

theorem declareFunction_apply (settings : Settings) (env : EnvId) (name : Name)
    (parameters : List Name) (body : List (Stmt Binding)) (m : Machine) :
    declareFunction settings env (.mk name parameters body) m =
      .ok () (({ m with heap := m.heap.takeId }.define env name.text
        (.function m.heap.nextId ⟨some name.text, parameters, body, env, false⟩)).noted
          settings 2 ("define function " ++ name.text)) :=
  note_apply ..

/-- Reading leaves the machine alone. -/
theorem machine_of_read {settings : Settings} {env : EnvId} {name : Name} {binding : Binding}
    {m m' : Machine} {a : Value} (h : read settings env name binding m = .ok a m') : m' = m := by
  have hname : ∀ env : EnvId, readByName env name m = .ok a m' → m' = m := by
    intro env h
    unfold readByName at h
    cases hg : m.heap.get? env name.text <;> rw [hg] at h <;> cases h
    rfl
  unfold read at h
  cases hl : settings.lookup <;> rw [hl] at h
  · cases binding with
    | global => exact hname _ h
    | «local» distance =>
      simp only [readAt] at h
      cases hg : m.heap.getAt env distance name.text <;> rw [hg] at h <;> cases h
      rfl
  · exact hname _ h

/-- A superclass that is found is what its name stands for, and nothing has changed. -/
theorem superclassOf_eq_ok {settings : Settings} {env : EnvId}
    {superclass : Option (Reference Binding)} {m m' : Machine} {parent : Option Class}
    (h : superclassOf settings env superclass m = .ok parent m') :
    m' = m ∧ parent.isSome = superclass.isSome ∧
      ∀ c, parent = some c → ∃ r, superclass = some r ∧
        read settings env r.name r.binding m = .ok (.classRef c) m := by
  cases superclass with
  | none =>
    cases h
    exact ⟨rfl, rfl, fun _ hc => nomatch hc⟩
  | some r =>
    obtain ⟨a, m₁, hr, h⟩ := bind_eq_ok.mp h
    obtain rfl := machine_of_read hr
    cases a with
    | classRef c =>
      cases h
      exact ⟨rfl, rfl, fun _ hc => by cases hc; exact ⟨r, rfl, hr⟩⟩
    | _ => cases h

/-- The environment in which the methods of a class are made. -/
def methodEnv (m : Machine) (env : EnvId) : Option Class → EnvId
  | none => env
  | some _ => m.heap.nextEnv

/-- The machine after a class is declared. -/
def classMachine (settings : Settings) (env : EnvId) (name : Name) (parent : Option Class)
    (methods : List (Function Binding)) (m : Machine) : Machine :=
  let cleared := m.define env name.text .nil
  let opened := cleared.openClass env parent
  let definition := Class.mk opened.heap.nextId name.text parent
    (classMethods (methodEnv cleared env parent) methods ∅)
  ({ opened with heap := opened.heap.takeId }.define env name.text (.classRef definition)).noted
    settings 2 (classNote definition)

theorem methodEnv_define (m : Machine) (env other : EnvId) (name : String) (value : Value)
    (parent : Option Class) : methodEnv (m.define other name value) env parent =
      methodEnv m env parent := by
  cases parent with
  | none => rfl
  | some parent => simp [methodEnv, Heap.nextEnv]

theorem nextId_openClass (m : Machine) (env : EnvId) (parent : Option Class) :
    (m.openClass env parent).heap.nextId = m.heap.nextId := by
  cases parent <;> rfl

/-- Opening a class only adds to the heap. -/
theorem openClass_grows (m : Machine) (env : EnvId) (parent : Option Class) :
    m.heap.Grows (m.openClass env parent).heap := by
  cases parent with
  | none => exact .refl _
  | some parent => exact Heap.grows_pushEnv ..

/-- So does what else its declaration does. -/
theorem classMachine_grows (settings : Settings) (env : EnvId) (name : Name)
    (parent : Option Class) (methods : List (Function Binding)) (m : Machine) :
    ((m.define env name.text .nil).openClass env parent).heap.Grows
      (classMachine settings env name parent methods m).heap := by
  rw [classMachine, Machine.heap_noted]
  generalize (m.define env name.text .nil).openClass env parent = opened
  have ht : opened.heap.Grows opened.heap.takeId := Heap.grows_of_environments_eq rfl
  exact ht.trans (Heap.grows_define ..)

/-- After its declaration, the name of a class is set. -/
theorem has_classMachine {settings : Settings} {env : EnvId} {name : Name}
    {parent : Option Class} {methods : List (Function Binding)} {m : Machine}
    (hlt : env.index < m.heap.environments.size) :
    (classMachine settings env name parent methods m).heap.Has env name.text := by
  have hg := openClass_grows (m.define env name.text .nil) env parent
  have hlt' := Nat.lt_of_lt_of_le hlt ((Heap.grows_define m.heap env name.text .nil).trans hg).size
  simp only [classMachine, Machine.heap_noted, Machine.heap_define]
  exact Heap.has_define (h := (Machine.openClass _ env parent).heap.takeId) hlt' name.text _

/-- The declaration of a class succeeds if its superclass is found. -/
theorem declareClass_apply {settings : Settings} {env : EnvId} {name : Name}
    {superclass : Option (Reference Binding)} {methods : List (Function Binding)} {m : Machine}
    {parent : Option Class} (h : superclassOf settings env superclass m = .ok parent m) :
    declareClass settings env name superclass methods m =
      .ok () (classMachine settings env name parent methods m) := by
  unfold declareClass
  rw [bind_apply, h]
  cases parent with
  | none => exact note_apply ..
  | some parent => exact note_apply ..

/-- A declaration that completes has found the superclass, if one is named. -/
theorem declareClass_eq_ok {settings : Settings} {env : EnvId} {name : Name}
    {superclass : Option (Reference Binding)} {methods : List (Function Binding)}
    {m m' : Machine} {u : Unit}
    (h : declareClass settings env name superclass methods m = .ok u m') :
    ∃ parent, superclassOf settings env superclass m = .ok parent m ∧
      m' = classMachine settings env name parent methods m := by
  obtain ⟨parent, m₁, hs, hrest⟩ := bind_eq_ok.mp h
  obtain ⟨rfl, -⟩ := superclassOf_eq_ok hs
  rw [declareClass_apply hs] at h
  cases h
  exact ⟨parent, hs, rfl⟩

/-! ## Calls -/

theorem checkCall_apply (settings : Settings) (depth : Nat) (callee : Value) (count line : Nat)
    (m : Machine) :
    checkCall settings depth callee count line m =
      match callee.arity? with
      | none => .error (.failure ⟨.notCallable, line⟩) m
      | some arity =>
        if count = arity then
          if settings.callLimit ≤ depth then
            .error (.failure ⟨.stackOverflow, line⟩) (m.noted settings 2 (callNote callee count))
          else .ok () (m.noted settings 2 (callNote callee count))
        else .error (.failure ⟨.wrongArgumentCount arity count, line⟩) m := by
  unfold checkCall
  cases callee.arity? with
  | none => rfl
  | some arity =>
    by_cases hc : count = arity
    · simp only [hc, ne_eq, not_true_eq_false, if_false, if_true]
      refine (note_bind_apply settings 2 (callNote callee arity) _ m).trans ?_
      split <;> rfl
    · simp only [ne_eq, hc, not_false_eq_true, if_true, if_false]
      rfl

/-! ## Laws of steps -/

/-- The machine at the end of a run. -/
def lastMachine {α : Type} : EStateM.Result Abort Machine α → Machine
  | .ok _ m => m
  | .error _ m => m

/-- A relation that holds of every kind of step but the setting of variables and fields. -/
structure QuietLaw (R : Machine → Machine → Prop) : Prop where
  refl : ∀ m, R m m
  trans : ∀ {m₁ m₂ m₃}, R m₁ m₂ → R m₂ m₃ → R m₁ m₃
  event : ∀ (m : Machine) (e : Event), ¬ e.IsReport → R m { m with events := m.events.push e }
  clock : ∀ m : Machine, R m { m with readings := m.readings + 1 }
  pushEnv : ∀ (m : Machine) (parent : EnvId) (slots : Slots Value), R m (m.pushEnv parent slots)
  pushObject : ∀ m : Machine, R m { m with heap := m.heap.pushObject }
  takeId : ∀ m : Machine, R m { m with heap := m.heap.takeId }

/-- The relation holds of the setting of a variable of the given name. -/
def AllowsVariable (R : Machine → Machine → Prop) (name : String) : Prop :=
  ∀ (m : Machine) (env : EnvId) (value : Value),
    R m { m with heap := m.heap.define env name value }

/-- The relation holds of the setting of a field. -/
def AllowsFields (R : Machine → Machine → Prop) : Prop :=
  ∀ (m : Machine) (object : ObjectId) (name : String) (value : Value),
    R m { m with heap := m.heap.setField object name value }

/-- A relation that holds of every kind of step. -/
structure StepLaw (R : Machine → Machine → Prop) : Prop extends QuietLaw R where
  define : ∀ (m : Machine) (env : EnvId) (name : String) (value : Value),
    R m { m with heap := m.heap.define env name value }
  setField : ∀ (m : Machine) (object : ObjectId) (name : String) (value : Value),
    R m { m with heap := m.heap.setField object name value }

/-- A run relates the machine before it to the one after it. -/
def Respects {α : Type} (R : Machine → Machine → Prop) (x : Run α) : Prop :=
  ∀ m, R m (lastMachine (x m))

namespace QuietLaw

variable {R : Machine → Machine → Prop} (law : QuietLaw R) {α β : Type}
include law

theorem pure (a : α) : Respects R (pure a : Run α) := fun m => law.refl m

theorem throw (e : Abort) : Respects R (throw e : Run α) := fun m => law.refl m

theorem fail (error : RuntimeError) (line : Nat) : Respects R (fail error line : Run α) :=
  fun m => law.refl m

/-- A law of steps is a law of steps in sequence. -/
theorem bind {x : Run α} {f : α → Run β} (hx : Respects R x) (hf : ∀ a, Respects R (f a)) :
    Respects R (x >>= f) := by
  intro m
  have hm := hx m
  rw [bind_apply]
  cases h : x m with
  | ok a m' =>
    rw [h] at hm
    exact law.trans hm (hf a m')
  | error e m' =>
    rw [h] at hm
    exact hm

omit law in
theorem ite {c : Prop} [Decidable c] {x y : Run α} (hx : Respects R x) (hy : Respects R y) :
    Respects R (if c then x else y) := by
  split
  · exact hx
  · exact hy

theorem orFail (line : Nat) (x : Except RuntimeError α) : Respects R (Run.orFail line x) := by
  cases x with
  | ok a => exact law.pure a
  | error e => exact law.fail e line

/-- An event is added, unless it is a report. -/
theorem emit {event : Event} (h : ¬ event.IsReport) : Respects R (Run.emit event) :=
  fun m => law.event m event h

theorem note (settings : Settings) (level : Nat) (line : String) :
    Respects R (if level ≤ settings.verbosity then Run.emit (.noted line) else Pure.pure ()) :=
  ite (law.emit id) (law.pure _)

theorem noteBind (settings : Settings) (level : Nat) (line : String) {x : Run α}
    (hx : Respects R x) :
    Respects R (if level ≤ settings.verbosity then Run.emit (.noted line) >>= fun _ => x else x) :=
  ite (law.bind (law.emit id) fun _ => hx) hx

theorem newEnv (parent : EnvId) (slots : Slots Value) : Respects R (Run.newEnv parent slots) :=
  fun m => law.pushEnv m parent slots

theorem newObject : Respects R Run.newObject := fun m => law.pushObject m

theorem newId : Respects R Run.newId := fun m => law.takeId m

omit law in
/-- A variable may be set if the law allows its name. -/
theorem defineVariable {name : String} (hname : AllowsVariable R name) (env : EnvId)
    (value : Value) : Respects R (Run.define env name value) :=
  fun m => hname m env value

omit law in
/-- A field may be set if the law allows it. -/
theorem modifyField (hfields : AllowsFields R) (object : ObjectId) (name : String)
    (value : Value) : Respects R (modifyHeap (·.setField object name value)) :=
  fun m => hfields m object name value

theorem readClock (settings : Settings) : Respects R (Run.readClock settings) :=
  fun m => law.clock m

/-! ### Variables, functions and classes -/

theorem readByName (env : EnvId) (name : Name) : Respects R (Run.readByName env name) := by
  intro m
  unfold Run.readByName
  cases m.heap.get? env name.text <;> exact law.refl m

theorem readAt (env : EnvId) (distance : Int) (name : String) :
    Respects R (Run.readAt env distance name) := by
  intro m
  unfold Run.readAt
  cases m.heap.getAt env distance name <;> exact law.refl m

/-- An assignment sets a variable in the environment that holds it, or aborts. -/
theorem writeByName {name : Name} (hname : AllowsVariable R name.text) (env : EnvId)
    (value : Value) : Respects R (Run.writeByName env name value) := by
  intro m
  unfold Run.writeByName
  cases m.heap.holder? name.text (env.index + 1) env with
  | none => exact law.refl m
  | some holder => exact hname m holder value

theorem writeAt {name : String} (hname : AllowsVariable R name) (env : EnvId) (distance : Int)
    (value : Value) : Respects R (Run.writeAt env distance name value) := by
  intro m
  unfold Run.writeAt
  cases m.heap.ancestorEnv env distance with
  | error e => exact law.refl m
  | ok outer => exact hname m outer value

theorem read (settings : Settings) (env : EnvId) (name : Name) (binding : Binding) :
    Respects R (Run.read settings env name binding) := by
  unfold Run.read
  split
  · exact law.readAt _ _ _
  · exact law.readByName _ _
  · exact law.readByName _ _

theorem write {name : Name} (hname : AllowsVariable R name.text) (settings : Settings)
    (env : EnvId) (binding : Binding) (value : Value) :
    Respects R (Run.write settings env name binding value) := by
  unfold Run.write
  split
  · exact law.writeAt hname _ _ _
  · exact law.writeByName hname _ _
  · exact law.writeByName hname _ _

theorem newFunction (code : Closure) : Respects R (Run.newFunction code) :=
  law.bind law.newId fun _ => law.pure _

/-- A method is bound in a new environment. -/
theorem bindMethod (method : Closure) (object : Value) :
    Respects R (Run.bindMethod method object) :=
  law.bind (law.newEnv _ _) fun _ => law.pure _

theorem methodValue (method : Closure) (object : Value) :
    Respects R (Run.methodValue method object) :=
  law.bind (law.bindMethod _ _) fun _ => law.newFunction _

theorem getProperty (object : ObjectId) (definition : Class) (property : Name) :
    Respects R (Run.getProperty object definition property) := by
  unfold Run.getProperty
  refine law.bind (fun m => law.refl m) fun m => ?_
  split
  · exact law.pure _
  split
  · exact law.methodValue _ _
  · exact law.fail _ _

theorem getSuper (env : EnvId) (binding : Binding) (method : Name) :
    Respects R (Run.getSuper env binding method) := by
  unfold Run.getSuper
  split
  · exact law.throw _
  refine law.bind (law.readAt _ _ _) fun a => ?_
  split
  · refine law.bind (law.readAt _ _ _) fun object => ?_
    split
    · exact law.methodValue _ _
    · exact law.fail _ _
  · exact law.throw _

theorem callValue (code : Closure) (completion : Completion) :
    Respects R (Run.callValue code completion) := by
  unfold Run.callValue
  split
  · exact law.readAt _ _ _
  split
  · exact law.pure _
  · exact law.pure _

theorem superclassOf (settings : Settings) (env : EnvId)
    (superclass : Option (Reference Binding)) :
    Respects R (Run.superclassOf settings env superclass) := by
  unfold Run.superclassOf
  split
  · exact law.pure _
  refine law.bind (law.read _ _ _ _) fun a => ?_
  split
  · exact law.pure _
  · exact law.fail _ _

theorem methodScope (env : EnvId) (parent : Option Class) :
    Respects R (Run.methodScope env parent) := by
  cases parent with
  | none => exact law.pure _
  | some parent => exact law.newEnv _ _

/-- A declaration of a class sets its name twice and makes at most one environment. -/
theorem declareClass {name : Name} (hname : AllowsVariable R name.text) (settings : Settings)
    (env : EnvId) (superclass : Option (Reference Binding)) (methods : List (Function Binding)) :
    Respects R (Run.declareClass settings env name superclass methods) :=
  law.bind (law.superclassOf _ _ _) fun _ =>
    law.bind (defineVariable hname _ _) fun _ =>
      law.bind (law.methodScope _ _) fun _ =>
        law.bind law.newId fun _ => law.bind (defineVariable hname _ _) fun _ => law.note _ _ _

theorem declareVariable {name : Name} (hname : AllowsVariable R name.text) (settings : Settings)
    (env : EnvId) (value : Value) :
    Respects R (Run.declareVariable settings env name value) :=
  law.bind (defineVariable hname _ _) fun _ => law.note _ _ _

theorem declareFunction {name : Name} (hname : AllowsVariable R name.text) (settings : Settings)
    (env : EnvId) (parameters : List Name) (body : List (Stmt Binding)) :
    Respects R (Run.declareFunction settings env (.mk name parameters body)) :=
  law.bind (law.newFunction _) fun _ =>
    law.bind (defineVariable hname _ _) fun _ => law.note _ _ _

theorem checkCall (settings : Settings) (depth : Nat) (callee : Value) (count line : Nat) :
    Respects R (Run.checkCall settings depth callee count line) := by
  unfold Run.checkCall
  split
  · exact law.fail _ _
  have hlimit : Respects R
      (if settings.callLimit ≤ depth then Run.fail .stackOverflow line else Pure.pure ()) :=
    ite (law.fail _ _) (law.pure _)
  have hnoted := law.noteBind settings 2 (callNote callee count) hlimit
  exact ite (law.bind (law.fail _ _) fun _ => hnoted) hnoted

end QuietLaw

/-! ## The heap grows -/

/-- The heap of the second machine has everything that of the first one has. -/
def HeapGrows (m m' : Machine) : Prop := m.heap.Grows m'.heap

/-- No step takes an environment or a variable away, or changes a parent. -/
theorem grows_stepLaw : StepLaw HeapGrows where
  refl m := Heap.Grows.refl m.heap
  trans h12 h23 := Heap.Grows.trans h12 h23
  event m _ _ := Heap.Grows.refl m.heap
  clock m := Heap.Grows.refl m.heap
  pushEnv m _ _ := Heap.grows_pushEnv m.heap _ _
  define m _ _ _ := Heap.grows_define m.heap _ _ _
  pushObject _ := Heap.grows_of_environments_eq rfl
  setField _ _ _ _ := Heap.grows_of_environments_eq rfl
  takeId _ := Heap.grows_of_environments_eq rfl

/-- The heap of the second machine extends that of the first one. -/
def HeapExtends (m m' : Machine) : Prop := m.heap.Extends m'.heap

/-- No step takes an object or a number back. -/
theorem extends_stepLaw : StepLaw HeapExtends where
  refl m := .refl m.heap
  trans h12 h23 := Heap.Extends.trans h12 h23
  event m _ _ := .refl m.heap
  clock m := .refl m.heap
  pushEnv m _ _ := m.heap.extends_pushEnv _ _
  define m _ _ _ := m.heap.extends_define _ _ _
  pushObject m := m.heap.extends_pushObject
  setField m _ _ _ := m.heap.extends_setField _ _ _
  takeId m := m.heap.extends_takeId

end Run

end ClassScript
