import ClassScript.Text.Quoted
import ClassScript.Value.Basic

/-!
# The heap

The heap holds what changes while a program runs: the variables of the
environments and the fields of the objects.

An environment has slots for its variables and a parent, except the outermost
one, which holds the globals.  Environments are numbered in the order in which
they are made and a parent is made before its children, so the number of an
environment bounds the walk along its parents.

A variable is found in two ways.  By name, in the closest environment that has
it, starting from a given one (`get?`, `assign?`).  By distance, in the
environment that many parents away (`getAt`, `assignAt`).  A distance may lead
past the outermost environment; the step out of it arrives nowhere, and there
is no step from there.
-/

namespace ClassScript

/-- The variables of a scope in action. -/
structure Environment where
  /-- The environment around it, if it is not the outermost one. -/
  parent : Option EnvId
  /-- Its variables. -/
  slots : Slots Value

/-- All variables and fields. -/
structure Heap where
  /-- The environments, each at its number. -/
  environments : Array Environment
  /-- The fields of the objects, each at its number. -/
  objects : Array (Slots Value)
  /-- The number of the next function or class. -/
  nextId : Nat

/-- Why a variable cannot be reached by its distance. -/
inductive AccessError where
  /-- The environment at that distance does not have the name. -/
  | unset (name : String)
  /-- There is no environment at that distance. -/
  | pastOutermost
deriving DecidableEq, Repr

namespace Heap

/-- The heap with nothing in it. -/
def empty : Heap := ⟨#[], #[], 0⟩

instance : Inhabited Heap := ⟨empty⟩

/-! ## Environments -/

/-- The number of the next environment. -/
def nextEnv (h : Heap) : EnvId := ⟨h.environments.size⟩

/-- The heap with a new environment, which gets the number `h.nextEnv`. -/
def pushEnv (h : Heap) (parent : Option EnvId) (slots : Slots Value) : Heap :=
  { h with environments := h.environments.push ⟨parent, slots⟩ }

/-- The variables of an environment. -/
def slots (h : Heap) (env : EnvId) : Slots Value :=
  match h.environments[env.index]? with
  | none => ∅
  | some e => e.slots

/-- The parent of an environment. -/
def parent? (h : Heap) (env : EnvId) : Option EnvId :=
  match h.environments[env.index]? with
  | none => none
  | some e => e.parent

/-- Gives a variable of an environment a value.  A new name is added to it. -/
def define (h : Heap) (env : EnvId) (name : String) (value : Value) : Heap :=
  { h with
    environments := h.environments.modify env.index fun e =>
      { e with slots := e.slots.set name value } }

/-! ## Access by name -/

/-- The value of the closest variable of a name, at most `bound` environments
away. -/
def find? (h : Heap) (name : String) : (bound : Nat) → EnvId → Option Value
  | 0, _ => none
  | bound + 1, env =>
    match h.environments[env.index]? with
    | none => none
    | some e =>
      match e.slots.get? name with
      | some value => some value
      | none =>
        match e.parent with
        | none => none
        | some outer => find? h name bound outer

/-- The closest environment that has a name, at most `bound` environments
away. -/
def holder? (h : Heap) (name : String) : (bound : Nat) → EnvId → Option EnvId
  | 0, _ => none
  | bound + 1, env =>
    match h.environments[env.index]? with
    | none => none
    | some e =>
      if e.slots.contains name then some env
      else
        match e.parent with
        | none => none
        | some outer => holder? h name bound outer

/-- The value of a name, seen from an environment. -/
def get? (h : Heap) (env : EnvId) (name : String) : Option Value :=
  h.find? name (env.index + 1) env

/-- The heap after a name, seen from an environment, is given a value.  The
name must be there. -/
def assign? (h : Heap) (env : EnvId) (name : String) (value : Value) : Option Heap :=
  match h.holder? name (env.index + 1) env with
  | none => none
  | some holder => some (h.define holder name value)

/-! ## Access by distance -/

/-- Where that many steps to the parent lead.  Outside of the outermost
environment is nowhere, `some none`, and a step from nowhere fails. -/
def ascend (h : Heap) : Option EnvId → Nat → Option (Option EnvId)
  | place, 0 => some place
  | none, _ + 1 => none
  | some env, steps + 1 => h.ascend (h.parent? env) steps

/-- Where the given distance leads.  A negative distance counts as zero. -/
def ancestor (h : Heap) (env : EnvId) (distance : Int) : Except AccessError (Option EnvId) :=
  match h.ascend (some env) distance.toNat with
  | none => .error .pastOutermost
  | some place => .ok place

/-- The environment at the given distance. -/
def ancestorEnv (h : Heap) (env : EnvId) (distance : Int) : Except AccessError EnvId :=
  match h.ascend (some env) distance.toNat with
  | some (some outer) => .ok outer
  | _ => .error .pastOutermost

/-- The value of a name in the environment at the given distance. -/
def getAt (h : Heap) (env : EnvId) (distance : Int) (name : String) :
    Except AccessError Value :=
  match h.ancestorEnv env distance with
  | .error e => .error e
  | .ok outer =>
    match (h.slots outer).get? name with
    | none => .error (.unset name)
    | some value => .ok value

/-- The heap after a name in the environment at the given distance is given a
value.  A new name is added there. -/
def assignAt (h : Heap) (env : EnvId) (distance : Int) (name : String) (value : Value) :
    Except AccessError Heap :=
  match h.ancestorEnv env distance with
  | .error e => .error e
  | .ok outer => .ok (h.define outer name value)

/-! ## Objects -/

/-- The number of the next object. -/
def nextObject (h : Heap) : ObjectId := ⟨h.objects.size⟩

/-- The heap with a new object without fields, which gets the number
`h.nextObject`. -/
def pushObject (h : Heap) : Heap := { h with objects := h.objects.push ∅ }

/-- A field of an object. -/
def field? (h : Heap) (object : ObjectId) (name : String) : Option Value :=
  match h.objects[object.index]? with
  | none => none
  | some fields => fields.get? name

/-- Gives a field of an object a value. -/
def setField (h : Heap) (object : ObjectId) (name : String) (value : Value) : Heap :=
  { h with objects := h.objects.modify object.index fun fields => fields.set name value }

/-! ## Numbers -/

/-- The heap after the number `h.nextId` is given to a function or class. -/
def takeId (h : Heap) : Heap := { h with nextId := h.nextId + 1 }

/-! ## Descriptions -/

/-- The number of environments around an environment, at most `bound`. -/
def depth (h : Heap) : (bound : Nat) → EnvId → Nat
  | 0, _ => 0
  | bound + 1, env =>
    match h.parent? env with
    | none => 0
    | some outer => h.depth bound outer + 1

/-- The description of an environment: how deep it lies and its names in the
order of their characters. -/
def describe (h : Heap) (env : EnvId) : String :=
  "<Environment depth=" ++ toString (h.depth (env.index + 1) env)
    ++ " names=" ++ Quoted.bracketed (Quoted.sorted (h.slots env).names) ++ ">"

end Heap

end ClassScript
