import ClassScript.Evaluation
import ClassScript.Proofs.Lines.Tree

/-!
# Lines of values and heaps

A function keeps its code, and with it the lines of the program that it comes from.
`Heap.reline f` replaces them in all values of a heap.

No operation looks at a line.  The operators, the texts of values and what the heap is
asked for are the same on other lines, and what is changed in a heap can be changed after
relining just as well.
-/

namespace ClassScript

variable (f g : Nat → Nat)

/-! ## Slots -/

namespace Slots

variable {α β γ : Type} (φ : α → β)

/-- The slots with a function applied to each value. -/
def map (s : Slots α) : Slots β := ⟨s.entries.map fun e => (e.1, φ e.2)⟩

@[simp] theorem map_empty : (∅ : Slots α).map φ = ∅ := rfl

@[simp] theorem get?_map (s : Slots α) (name : String) :
    (s.map φ).get? name = (s.get? name).map φ := by
  obtain ⟨entries⟩ := s
  show find? name (entries.map _) = (find? name entries).map φ
  induction entries with
  | nil => rfl
  | cons e rest ih =>
    by_cases h : e.1 = name <;> simp [find?, h, ih]

@[simp] theorem contains_map (s : Slots α) (name : String) :
    (s.map φ).contains name = s.contains name := by
  simp [contains]

@[simp] theorem names_map (s : Slots α) : (s.map φ).names = s.names := by
  simp [names, map]

/-- Setting and then changing a value is setting the changed value. -/
theorem map_set (s : Slots α) (name : String) (value : α) :
    (s.set name value).map φ = (s.map φ).set name (φ value) := by
  obtain ⟨entries⟩ := s
  suffices h : (replace name value entries).map (fun e => (e.1, φ e.2)) =
      replace name (φ value) (entries.map fun e => (e.1, φ e.2)) from congrArg mk h
  induction entries with
  | nil => rfl
  | cons e rest ih =>
    by_cases h : e.1 = name <;> simp [replace, h, ih]

theorem map_map (ψ : β → γ) (s : Slots α) : (s.map φ).map ψ = s.map (ψ ∘ φ) := by
  simp [map]

theorem map_eq_self {φ : α → α} (h : ∀ a, φ a = a) (s : Slots α) : s.map φ = s := by
  simp [map, h]

end Slots

/-! ## Values -/

/-- Code on other lines. -/
def Closure.reline (code : Closure) : Closure :=
  { code with parameters := code.parameters.map (Name.reline f), body := relineStmts f code.body }

/-- A class with its methods on other lines. -/
def Class.reline : Class → Class
  | .mk id name none methods => .mk id name none (methods.map (Closure.reline f))
  | .mk id name (some parent) methods =>
      .mk id name (some parent.reline) (methods.map (Closure.reline f))

/-- A value with its code on other lines. -/
def Value.reline : Value → Value
  | .function id code => .function id (code.reline f)
  | .classRef definition => .classRef (definition.reline f)
  | .object id definition => .object id (definition.reline f)
  | a => a

theorem Closure.reline_id (code : Closure) : code.reline id = code := by
  simp [Closure.reline, relineStmts_id]

theorem Closure.reline_comp (code : Closure) :
    (code.reline f).reline g = code.reline (g ∘ f) := by
  simp only [Closure.reline, Name.map_reline_comp, relineStmts_comp]

theorem relineClass_id : ∀ definition : Class, definition.reline id = definition
  | .mk _ _ none methods => by simp [Class.reline, methods.map_eq_self Closure.reline_id]
  | .mk _ _ (some parent) methods => by
      simp [Class.reline, relineClass_id parent, methods.map_eq_self Closure.reline_id]

theorem Class.reline_comp : ∀ definition : Class,
    (definition.reline f).reline g = definition.reline (g ∘ f)
  | .mk _ _ none methods => by
      simp only [Class.reline, Slots.map_map]
      exact congrArg _ (congrArg (Slots.map · methods) (funext (Closure.reline_comp f g)))
  | .mk _ _ (some parent) methods => by
      simp only [Class.reline, Class.reline_comp parent, Slots.map_map]
      exact congrArg _ (congrArg (Slots.map · methods) (funext (Closure.reline_comp f g)))

theorem Value.reline_id (a : Value) : a.reline id = a := by
  cases a <;> simp [Value.reline, Closure.reline_id, relineClass_id]

theorem Value.reline_comp (a : Value) : (a.reline f).reline g = a.reline (g ∘ f) := by
  cases a <;> simp [Value.reline, Closure.reline_comp, Class.reline_comp]

/-! ### What is read of a value -/

theorem Class.name_reline (definition : Class) : (definition.reline f).name = definition.name := by
  rcases definition with ⟨id, name, _ | parent, methods⟩ <;> rfl

theorem Class.id_reline (definition : Class) : (definition.reline f).id = definition.id := by
  rcases definition with ⟨id, name, _ | parent, methods⟩ <;> rfl

/-- The method that a class has by a name is the same one, on other lines. -/
theorem Class.findMethod?_reline (method : String) : ∀ definition : Class,
    (definition.reline f).findMethod? method =
      (definition.findMethod? method).map (Closure.reline f)
  | .mk _ _ none methods => by
      simp only [Class.reline, findMethod?, Slots.get?_map]
      cases methods.get? method <;> rfl
  | .mk _ _ (some parent) methods => by
      simp only [Class.reline, findMethod?, Slots.get?_map]
      cases methods.get? method with
      | none => exact Class.findMethod?_reline method parent
      | some code => rfl

/-- A class takes as many arguments. -/
theorem Class.arity_reline (definition : Class) :
    (definition.reline f).arity = definition.arity := by
  unfold arity
  rw [Class.findMethod?_reline]
  cases definition.findMethod? initializerName <;> simp [Closure.reline]

namespace Value

theorem arity?_reline (a : Value) : (a.reline f).arity? = a.arity? := by
  cases a <;> simp [reline, arity?, Closure.reline, Class.arity_reline]

/-- The text of a value tells no lines. -/
theorem text_reline (a : Value) : (a.reline f).text = a.text := by
  cases a <;> simp [reline, text, Closure.reline, Class.name_reline]

theorem typeName_reline (a : Value) : (a.reline f).typeName = a.typeName := by
  cases a <;> rfl

theorem isTruthy_reline (a : Value) : (a.reline f).isTruthy = a.isTruthy := by
  cases a <;> rfl

theorem isString_reline (a : Value) : (a.reline f).isString = a.isString := by
  cases a <;> rfl

theorem numbers?_reline (a b : Value) : numbers? (a.reline f) (b.reline f) = numbers? a b := by
  cases a <;> cases b <;> rfl

/-- Values are equal as before, since functions and classes are told apart by their numbers. -/
theorem isEqual_reline (a b : Value) : (a.reline f).isEqual (b.reline f) = a.isEqual b := by
  cases a <;> cases b <;> simp [reline, isEqual, Class.id_reline]

theorem reline_ofLiteral (l : Literal) : (ofLiteral l).reline f = ofLiteral l := by
  cases l <;> rfl

end Value

/-! ### Operators -/

/-- A value that is made by an operator carries no lines. -/
theorem Value.onNumbers_reline {op : Float → Float → Except RuntimeError Value}
    (hop : ∀ x y, (op x y).map (Value.reline f) = op x y) (a b : Value) :
    Value.onNumbers op (a.reline f) (b.reline f) =
      (Value.onNumbers op a b).map (Value.reline f) := by
  unfold Value.onNumbers
  rw [Value.numbers?_reline]
  cases Value.numbers? a b with
  | none => rfl
  | some p => exact (hop p.1 p.2).symm

/-- Numbers and texts are added as before. -/
theorem Value.add_reline (a b : Value) :
    Value.add (a.reline f) (b.reline f) = (Value.add a b).map (Value.reline f) := by
  unfold Value.add
  rw [Value.numbers?_reline, Value.isString_reline, Value.isString_reline, Value.text_reline,
    Value.text_reline]
  cases Value.numbers? a b with
  | none => dsimp only; split <;> rfl
  | some p => rfl

/-- An operator yields the same value, or fails for the same reason. -/
theorem BinaryOp.apply_reline (op : BinaryOp) (a b : Value) :
    op.apply (a.reline f) (b.reline f) = (op.apply a b).map (Value.reline f) := by
  cases op with
  | add => exact Value.add_reline f a b
  | equal | notEqual => simp only [apply, Value.isEqual_reline]; rfl
  | divide =>
    refine Value.onNumbers_reline f (fun x y => ?_) a b
    unfold quotient
    split <;> rfl
  | _ => exact Value.onNumbers_reline f (fun _ _ => rfl) a b

theorem UnaryOp.apply_reline (op : UnaryOp) (a : Value) :
    op.apply (a.reline f) = (op.apply a).map (Value.reline f) := by
  cases op with
  | not => simp only [apply, Value.isTruthy_reline]; rfl
  | negate => cases a <;> rfl

theorem LogicalOp.decides_reline (op : LogicalOp) (a : Value) :
    op.decides (a.reline f) = op.decides a := by
  cases op <;> simp [decides, Value.isTruthy_reline]

/-! ## Heaps -/

/-- An environment with its values on other lines. -/
def Environment.reline (e : Environment) : Environment :=
  { e with slots := e.slots.map (Value.reline f) }

/-- A heap with its values on other lines. -/
def Heap.reline (h : Heap) : Heap where
  environments := h.environments.map (Environment.reline f)
  objects := h.objects.map (Slots.map (Value.reline f))
  nextId := h.nextId

namespace Heap

theorem reline_id (h : Heap) : h.reline id = h := by
  have hslots : Slots.map (Value.reline id) = id := funext (Slots.map_eq_self Value.reline_id)
  have henv : Environment.reline id = id := by
    funext e
    simp [Environment.reline, hslots]
  simp [reline, hslots, henv]

/-- The lines of a heap may be changed one after the other, or at once. -/
theorem reline_comp (h : Heap) : (h.reline f).reline g = h.reline (g ∘ f) := by
  have hvalue : Value.reline g ∘ Value.reline f = Value.reline (g ∘ f) :=
    funext (Value.reline_comp f g)
  have hslots : Slots.map (Value.reline g) ∘ Slots.map (Value.reline f) =
      Slots.map (Value.reline (g ∘ f)) := by
    funext s
    simp [Slots.map_map, hvalue]
  have henv : Environment.reline g ∘ Environment.reline f = Environment.reline (g ∘ f) := by
    funext e
    simp [Environment.reline, Slots.map_map, hvalue]
  simp only [reline, Array.map_map, hslots, henv]

/-! ### What is asked of a heap -/

variable (h : Heap) (env : EnvId) (name : String)

@[simp] theorem nextEnv_reline : (h.reline f).nextEnv = h.nextEnv := by
  simp [nextEnv, reline]

@[simp] theorem nextObject_reline : (h.reline f).nextObject = h.nextObject := by
  simp [nextObject, reline]

theorem getElem?_reline (i : Nat) :
    (h.reline f).environments[i]? = h.environments[i]?.map (Environment.reline f) := by
  simp [reline]

/-- An environment has the same variables. -/
theorem slots_reline : (h.reline f).slots env = (h.slots env).map (Value.reline f) := by
  unfold slots
  rw [getElem?_reline]
  cases h.environments[env.index]? <;> rfl

/-- An environment has the same parent. -/
theorem parent?_reline : (h.reline f).parent? env = h.parent? env := by
  unfold parent?
  rw [getElem?_reline]
  cases h.environments[env.index]? <;> rfl

theorem find?_reline (bound : Nat) :
    (h.reline f).find? name bound env = (h.find? name bound env).map (Value.reline f) := by
  induction bound generalizing env with
  | zero => rfl
  | succ bound ih =>
    unfold find?
    rw [getElem?_reline]
    cases h.environments[env.index]? with
    | none => rfl
    | some e =>
      simp only [Option.map_some, Environment.reline, Slots.get?_map]
      cases e.slots.get? name with
      | some value => rfl
      | none =>
        cases e.parent with
        | none => rfl
        | some outer => exact ih outer

/-- A name is held by the same environment. -/
theorem holder?_reline (bound : Nat) :
    (h.reline f).holder? name bound env = h.holder? name bound env := by
  induction bound generalizing env with
  | zero => rfl
  | succ bound ih =>
    unfold holder?
    rw [getElem?_reline]
    cases h.environments[env.index]? with
    | none => rfl
    | some e =>
      simp only [Option.map_some, Environment.reline, Slots.contains_map]
      split
      · rfl
      · cases e.parent with
        | none => rfl
        | some outer => exact ih outer

theorem get?_reline : (h.reline f).get? env name = (h.get? env name).map (Value.reline f) :=
  h.find?_reline f env name _

theorem ascend_reline (place : Option EnvId) (steps : Nat) :
    (h.reline f).ascend place steps = h.ascend place steps := by
  induction steps generalizing place with
  | zero => rfl
  | succ steps ih =>
    cases place with
    | none => rfl
    | some env => simp only [ascend, parent?_reline, ih]

/-- A distance leads to the same environment. -/
theorem ancestorEnv_reline (distance : Int) :
    (h.reline f).ancestorEnv env distance = h.ancestorEnv env distance := by
  simp only [ancestorEnv, ascend_reline]

theorem getAt_reline (distance : Int) :
    (h.reline f).getAt env distance name = (h.getAt env distance name).map (Value.reline f) := by
  simp only [getAt, ancestorEnv_reline, slots_reline, Slots.get?_map]
  cases h.ancestorEnv env distance with
  | error e => rfl
  | ok outer => dsimp only; cases (h.slots outer).get? name <;> rfl

/-- An object has the same fields. -/
theorem field?_reline (object : ObjectId) :
    (h.reline f).field? object name = (h.field? object name).map (Value.reline f) := by
  simp only [field?, reline, Array.getElem?_map]
  cases h.objects[object.index]? with
  | none => rfl
  | some fields => exact Slots.get?_map ..

/-! ### What is changed in a heap -/

/-- A new environment takes the same number. -/
theorem reline_pushEnv (parent : Option EnvId) (slots : Slots Value) :
    (h.pushEnv parent slots).reline f =
      (h.reline f).pushEnv parent (slots.map (Value.reline f)) := by
  simp [reline, pushEnv, Environment.reline]

/-- A variable is set in the same environment. -/
theorem reline_define (value : Value) :
    (h.define env name value).reline f = (h.reline f).define env name (value.reline f) := by
  suffices henv : (h.environments.modify env.index fun e =>
        { e with slots := e.slots.set name value }).map (Environment.reline f) =
      (h.environments.map (Environment.reline f)).modify env.index fun e =>
        { e with slots := e.slots.set name (value.reline f) } by
    simp only [reline, define, henv]
  apply Array.ext_getElem?
  intro i
  simp only [Array.getElem?_map, Array.getElem?_modify]
  split <;> cases h.environments[i]? <;> simp [Environment.reline, Slots.map_set]

theorem reline_pushObject : h.pushObject.reline f = (h.reline f).pushObject := by
  simp [reline, pushObject]

/-- A field is set in the same object. -/
theorem reline_setField (object : ObjectId) (value : Value) :
    (h.setField object name value).reline f =
      (h.reline f).setField object name (value.reline f) := by
  suffices hobjects : (h.objects.modify object.index fun fields => fields.set name value).map
        (Slots.map (Value.reline f)) =
      (h.objects.map (Slots.map (Value.reline f))).modify object.index fun fields =>
        fields.set name (value.reline f) by
    simp only [reline, setField, hobjects]
  apply Array.ext_getElem?
  intro i
  simp only [Array.getElem?_map, Array.getElem?_modify]
  split <;> cases h.objects[i]? <;> simp [Slots.map_set]

end Heap

end ClassScript
