import ClassScript.Event
import ClassScript.Heap
import ClassScript.Value.Operators

/-!
# Evaluation

Evaluation runs the statements of a resolved program in an environment.  It
changes a *machine*: the heap, the number of readings of the clock so far, and
the events so far.  It ends in one of three ways.

* A statement completes: normally, by `break`, or by `return` with a value.
  Blocks, choices and loops hand a `break` or `return` on until a loop or a call
  takes it.  An expression completes with a value.
* Evaluation aborts: with a failure of the program, with the reading of a local
  variable that is not set yet, or with a distance that leads past the
  outermost environment.
* The fuel runs out.  It bounds the depth and the length of an evaluation, so
  that evaluation is a total function; a finished evaluation does not depend on
  it.

Calls in progress are counted on their own.  A call beyond
`Settings.callLimit` is a failure of the program.
-/

namespace ClassScript

/-! ## Settings, machine and outcomes -/

/-- How a reference to a variable or to `this` finds its environment. -/
inductive Lookup where
  /-- By the binding that resolution gave it. -/
  | bound
  /-- By its name, from the environment at hand outwards. -/
  | byName
deriving DecidableEq, Repr

/-- What evaluation depends on besides the program and the machine. -/
structure Settings where
  /-- How much is noted about the progress, 0 for nothing. -/
  verbosity : Nat
  /-- The largest number of calls in progress. -/
  callLimit : Nat
  /-- The time of each reading of the clock. -/
  clock : Nat → Float
  /-- How references find their environments. -/
  lookup : Lookup

/-- What evaluation changes. -/
structure Machine where
  /-- The variables and fields. -/
  heap : Heap
  /-- The number of readings of the clock. -/
  readings : Nat
  /-- What happened, in order. -/
  events : Array Event

/-- Why an evaluation ends early. -/
inductive Abort where
  /-- A failure of the program. -/
  | failure (failure : Failure)
  /-- A variable or an environment that cannot be reached. -/
  | access (error : AccessError)
  /-- The end of the fuel. -/
  | outOfFuel
deriving DecidableEq, Repr

/-- A piece of an evaluation. -/
abbrev Run := EStateM Abort Machine

/-- How a statement completes. -/
inductive Completion where
  | normal
  | broke
  | returned (value : Value)

/-- The environment of the globals. -/
def EnvId.globals : EnvId := ⟨0⟩

namespace Run

/-- Aborts with a failure. -/
def fail {α : Type} (error : RuntimeError) (line : Nat) : Run α :=
  throw (.failure ⟨error, line⟩)

/-- The value of a computation that may fail on the given line. -/
@[inline] def orFail {α : Type} (line : Nat) : Except RuntimeError α → Run α
  | .ok a => pure a
  | .error e => fail e line

/-- Adds an event. -/
@[inline] def emit (event : Event) : Run Unit :=
  modify fun m => { m with events := m.events.push event }

/-- Changes the heap. -/
@[inline] def modifyHeap (f : Heap → Heap) : Run Unit :=
  modify fun m => { m with heap := f m.heap }

/-- Makes an environment. -/
def newEnv (parent : EnvId) (slots : Slots Value) : Run EnvId := fun m =>
  .ok m.heap.nextEnv { m with heap := m.heap.pushEnv (some parent) slots }

/-- Makes an object without fields. -/
def newObject : Run ObjectId := fun m =>
  .ok m.heap.nextObject { m with heap := m.heap.pushObject }

/-- Makes the number of a function or class. -/
def newId : Run Nat := fun m =>
  .ok m.heap.nextId { m with heap := m.heap.takeId }

/-- Sets a variable of an environment. -/
def define (env : EnvId) (name : String) (value : Value) : Run Unit :=
  modifyHeap (·.define env name value)

/-- The time. -/
def readClock (settings : Settings) : Run Value := fun m =>
  .ok (.number (settings.clock m.readings)) { m with readings := m.readings + 1 }

/-! ## Variables -/

/-- The value of a name, seen from an environment. -/
def readByName (env : EnvId) (name : Name) : Run Value := fun m =>
  match m.heap.get? env name.text with
  | some value => .ok value m
  | none => .error (.failure ⟨.undefinedVariable name.text, name.line⟩) m

/-- Gives a name, seen from an environment, a value. -/
def writeByName (env : EnvId) (name : Name) (value : Value) : Run Unit := fun m =>
  match m.heap.holder? name.text (env.index + 1) env with
  | some holder => .ok () { m with heap := m.heap.define holder name.text value }
  | none => .error (.failure ⟨.undefinedVariable name.text, name.line⟩) m

/-- The value of a name at a distance. -/
def readAt (env : EnvId) (distance : Int) (name : String) : Run Value := fun m =>
  match m.heap.getAt env distance name with
  | .ok value => .ok value m
  | .error e => .error (.access e) m

/-- Gives a name at a distance a value. -/
def writeAt (env : EnvId) (distance : Int) (name : String) (value : Value) : Run Unit := fun m =>
  match m.heap.ancestorEnv env distance with
  | .ok outer => .ok () { m with heap := m.heap.define outer name value }
  | .error e => .error (.access e) m

/-- The value that a reference refers to. -/
def read (settings : Settings) (env : EnvId) (name : Name) (binding : Binding) : Run Value :=
  match settings.lookup, binding with
  | .bound, .local distance => readAt env distance name.text
  | .bound, .global => readByName .globals name
  | .byName, _ => readByName env name

/-- Gives what a reference refers to a value. -/
def write (settings : Settings) (env : EnvId) (name : Name) (binding : Binding)
    (value : Value) : Run Unit :=
  match settings.lookup, binding with
  | .bound, .local distance => writeAt env distance name.text value
  | .bound, .global => writeByName .globals name value
  | .byName, _ => writeByName env name value

/-! ## Functions, methods and properties -/

/-- A function value. -/
def newFunction (code : Closure) : Run Value := do
  return .function (← newId) code

/-- A method for an object: its code in an environment that holds the object as
`this`. -/
def bindMethod (method : Closure) (object : Value) : Run Closure := do
  let scope ← newEnv method.scope (Slots.single "this" object)
  return { method with scope }

/-- A method for an object, as a value. -/
def methodValue (method : Closure) (object : Value) : Run Value := do
  newFunction (← bindMethod method object)

/-- A property of an object: the field of that name, or else the method. -/
def getProperty (object : ObjectId) (definition : Class) (property : Name) : Run Value := do
  match (← get).heap.field? object property.text with
  | some value => return value
  | none =>
    match definition.findMethod? property.text with
    | some method => methodValue method (.object object definition)
    | none => fail (.undefinedProperty property.text) property.line

/-- A method of the superclass.  The object is in the environment just inside
the one that holds `super`. -/
def getSuper (env : EnvId) (binding : Binding) (method : Name) : Run Value := do
  match binding with
  | .global => throw (.access (.unset "super"))
  | .local distance =>
    match ← readAt env distance "super" with
    | .classRef parent =>
      let object ← readAt env (distance - 1) "this"
      match parent.findMethod? method.text with
      | some code => methodValue code object
      | none => fail (.undefinedProperty method.text) method.line
    | _ => throw (.access (.unset "super"))

/-- The slots for the arguments of a call. -/
def argumentSlots : List Name → List Value → Slots Value → Slots Value
  | name :: names, value :: values, slots =>
      argumentSlots names values (slots.set name.text value)
  | _, _, slots => slots

/-- The value of a completed call. -/
def callValue (code : Closure) (completion : Completion) : Run Value :=
  if code.isInitializer then readAt code.scope 0 "this"
  else match completion with
    | .returned value => pure value
    | _ => pure .nil

/-! ## Classes -/

/-- The methods of a class whose methods are made in the given environment.  Of
two with one name the later one stays. -/
def classMethods (scope : EnvId) : List (Function Binding) → Slots Closure → Slots Closure
  | [], slots => slots
  | .mk name parameters body :: rest, slots =>
      classMethods scope rest
        (slots.set name.text
          ⟨some name.text, parameters, body, scope, name.text = initializerName⟩)

/-- The superclass that a declaration names. -/
def superclassOf (settings : Settings) (env : EnvId) :
    Option (Reference Binding) → Run (Option Class)
  | none => return none
  | some parent => do
    match ← read settings env parent.name parent.binding with
    | .classRef definition => return some definition
    | _ => fail .superclassNotClass parent.name.line

/-- The environment in which the methods of a class are made. -/
def methodScope (env : EnvId) : Option Class → Run EnvId
  | none => return env
  | some parent => newEnv env (Slots.single "super" (.classRef parent))

/-- The note about a new class. -/
def classNote (c : Class) : String :=
  "define class " ++ c.name
    ++ (match c.superclass with
      | none => ""
      | some parent => " < " ++ parent.name)
    ++ " methods=" ++ Quoted.bracketed (Quoted.sorted c.methods.names)

/-- Declares a class.  Its name is nil until its methods are made. -/
def declareClass (settings : Settings) (env : EnvId) (name : Name)
    (superclass : Option (Reference Binding)) (methods : List (Function Binding)) :
    Run Unit := do
  let parent ← superclassOf settings env superclass
  define env name.text .nil
  let scope ← methodScope env parent
  let definition := Class.mk (← newId) name.text parent (classMethods scope methods ∅)
  define env name.text (.classRef definition)
  if 2 ≤ settings.verbosity then emit (.noted (classNote definition))

/-! ## Notes -/

/-- The note about a new variable. -/
def variableNote (name : Name) (value : Value) : String :=
  "declare " ++ name.text ++ ": " ++ value.typeName ++ " = " ++ value.text

/-- The note about a condition. -/
def conditionNote (statement : String) (value : Value) : String :=
  statement ++ " condition " ++ value.text ++ " -> "
    ++ (if value.isTruthy then "True" else "False")

/-- The note about a call. -/
def callNote (callee : Value) (count : Nat) : String :=
  "call " ++ callee.text ++ " with " ++ toString count ++ " arguments"

/-- Declares a variable. -/
def declareVariable (settings : Settings) (env : EnvId) (name : Name) (value : Value) :
    Run Unit := do
  define env name.text value
  if 2 ≤ settings.verbosity then emit (.noted (variableNote name value))

/-- Declares a function. -/
def declareFunction (settings : Settings) (env : EnvId) : Function Binding → Run Unit
  | .mk name parameters body => do
    let value ← newFunction ⟨some name.text, parameters, body, env, false⟩
    define env name.text value
    if 2 ≤ settings.verbosity then emit (.noted ("define function " ++ name.text))

/-- Checks a call before it is made: its callee, the number of its arguments and
the number of calls in progress. -/
def checkCall (settings : Settings) (depth : Nat) (callee : Value) (count line : Nat) :
    Run Unit := do
  match callee.arity? with
  | none => fail .notCallable line
  | some arity =>
    if count ≠ arity then fail (.wrongArgumentCount arity count) line
    if 2 ≤ settings.verbosity then emit (.noted (callNote callee count))
    if settings.callLimit ≤ depth then fail .stackOverflow line

/-! ## Expressions and statements -/

mutual

/-- The value of an expression, with `depth` calls in progress. -/
def evaluate (settings : Settings) :
    (fuel depth : Nat) → EnvId → Expr Binding → Run Value
  | 0, _, _, _ => throw .outOfFuel
  | fuel + 1, depth, env, e =>
    match e with
    | .literal value => return .ofLiteral value
    | .grouping inner => evaluate settings fuel depth env inner
    | .unary op line operand => do
      let a ← evaluate settings fuel depth env operand
      orFail line (op.apply a)
    | .binary left op line right => do
      let a ← evaluate settings fuel depth env left
      let b ← evaluate settings fuel depth env right
      orFail line (op.apply a b)
    | .logical left op _ right => do
      let a ← evaluate settings fuel depth env left
      if op.decides a then return a
      evaluate settings fuel depth env right
    | .variable target => read settings env target.name target.binding
    | .assign target value => do
      let a ← evaluate settings fuel depth env value
      write settings env target.name target.binding a
      return a
    | .call callee line arguments => do
      let f ← evaluate settings fuel depth env callee
      let values ← evaluateAll settings fuel depth env arguments
      checkCall settings depth f values.length line
      invoke settings fuel (depth + 1) f values
    | .get object property => do
      match ← evaluate settings fuel depth env object with
      | .object id definition => getProperty id definition property
      | _ => fail .noProperties property.line
    | .set object field value => do
      match ← evaluate settings fuel depth env object with
      | .object id _ =>
        let a ← evaluate settings fuel depth env value
        modifyHeap (·.setField id field.text a)
        return a
      | _ => fail .noFields field.line
    | .this line binding => read settings env ⟨"this", line⟩ binding
    | .super _ method binding => getSuper env binding method
    | .lambda _ parameters body => newFunction ⟨none, parameters, body, env, false⟩

/-- The values of expressions, in order. -/
def evaluateAll (settings : Settings) :
    (fuel depth : Nat) → EnvId → List (Expr Binding) → Run (List Value)
  | 0, _, _, _ => throw .outOfFuel
  | fuel + 1, depth, env, es =>
    match es with
    | [] => return []
    | e :: rest => do
      let a ← evaluate settings fuel depth env e
      return a :: (← evaluateAll settings fuel depth env rest)

/-- The value of a call that was checked. -/
def invoke (settings : Settings) :
    (fuel depth : Nat) → Value → List Value → Run Value
  | 0, _, _, _ => throw .outOfFuel
  | fuel + 1, depth, callee, values =>
    match callee with
    | .function _ code => runCode settings fuel depth code values
    | .classRef definition => do
      let object := Value.object (← newObject) definition
      match definition.findMethod? initializerName with
      | none => return object
      | some method =>
        let code ← bindMethod method object
        let _ ← runCode settings fuel depth code values
        return object
    | .native _ .clock => readClock settings
    | _ => return .nil

/-- Runs the code of a function on its arguments. -/
def runCode (settings : Settings) :
    (fuel depth : Nat) → Closure → List Value → Run Value
  | 0, _, _, _ => throw .outOfFuel
  | fuel + 1, depth, code, values => do
    let env ← newEnv code.scope (argumentSlots code.parameters values ∅)
    let completion ← executeAll settings fuel depth env code.body
    callValue code completion

/-- Runs a statement, with `depth` calls in progress. -/
def execute (settings : Settings) :
    (fuel depth : Nat) → EnvId → Stmt Binding → Run Completion
  | 0, _, _, _ => throw .outOfFuel
  | fuel + 1, depth, env, s =>
    match s with
    | .expression value => do
      let _ ← evaluate settings fuel depth env value
      return .normal
    | .print value => do
      let a ← evaluate settings fuel depth env value
      emit (.printed a.text)
      return .normal
    | .var name none => do
      declareVariable settings env name .nil
      return .normal
    | .var name (some value) => do
      let a ← evaluate settings fuel depth env value
      declareVariable settings env name a
      return .normal
    | .block body => do
      let inner ← newEnv env ∅
      executeAll settings fuel depth inner body
    | .ifStmt condition thenBranch elifs elseBranch => do
      let a ← evaluate settings fuel depth env condition
      if 3 ≤ settings.verbosity then emit (.noted (conditionNote "if" a))
      if a.isTruthy then execute settings fuel depth env thenBranch
      else executeElifs settings fuel depth env elifs elseBranch
    | .whileStmt condition body => executeLoop settings fuel depth env condition body
    | .functionDecl f => do
      declareFunction settings env f
      return .normal
    | .returnStmt _ none => return .returned .nil
    | .returnStmt _ (some value) => do
      let a ← evaluate settings fuel depth env value
      return .returned a
    | .breakStmt _ => return .broke
    | .classDecl name superclass methods => do
      declareClass settings env name superclass methods
      return .normal

/-- Runs statements in order until one does not complete normally. -/
def executeAll (settings : Settings) :
    (fuel depth : Nat) → EnvId → List (Stmt Binding) → Run Completion
  | 0, _, _, _ => throw .outOfFuel
  | fuel + 1, depth, env, body =>
    match body with
    | [] => return .normal
    | s :: rest => do
      match ← execute settings fuel depth env s with
      | .normal => executeAll settings fuel depth env rest
      | completion => return completion

/-- Runs the first branch whose condition holds, or else the last one. -/
def executeElifs (settings : Settings) :
    (fuel depth : Nat) → EnvId → List (Elif Binding) → Option (Stmt Binding) → Run Completion
  | 0, _, _, _, _ => throw .outOfFuel
  | fuel + 1, depth, env, elifs, elseBranch =>
    match elifs with
    | [] =>
      match elseBranch with
      | none => return .normal
      | some s => execute settings fuel depth env s
    | .mk condition body :: rest => do
      let a ← evaluate settings fuel depth env condition
      if a.isTruthy then execute settings fuel depth env body
      else executeElifs settings fuel depth env rest elseBranch

/-- Runs a loop from the test of its condition on. -/
def executeLoop (settings : Settings) :
    (fuel depth : Nat) → EnvId → Expr Binding → Stmt Binding → Run Completion
  | 0, _, _, _, _ => throw .outOfFuel
  | fuel + 1, depth, env, condition, body => do
    let a ← evaluate settings fuel depth env condition
    if 3 ≤ settings.verbosity then emit (.noted (conditionNote "while" a))
    if !a.isTruthy then return .normal
    match ← execute settings fuel depth env body with
    | .normal => executeLoop settings fuel depth env condition body
    | .broke => return .normal
    | .returned value => return .returned value

end

/-- Runs the statements of a program among the globals.  A `break` or `return`
that no loop or call takes only ends its statement. -/
def program (settings : Settings) (fuel : Nat) : Program Binding → Run Unit
  | [] => pure ()
  | s :: rest => do
    let _ ← execute settings fuel 0 .globals s
    program settings fuel rest

end Run

end ClassScript
