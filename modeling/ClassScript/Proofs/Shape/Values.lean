import ClassScript.Proofs.Renaming.Values
import ClassScript.Proofs.Shape.Relation

/-!
# Values of programs of different shape

Two runs of programs of different shape make their environments in the same order, but for
those of extra scopes, which only the first run makes.  A `Pairing` lists the environments
of the first run, each with its *twin* in the second run if it has one.  It grows while the
runs go on, and what is there stays as it is.

Values are related in a pairing if they are the same but for the bodies of functions, which
are of different shape, and for the environments where the functions were made, which are
related by the marks along them (`Pairing.Along`).
-/

namespace ClassScript

/-! ## Pairings -/

/-- An environment of the first run. -/
inductive PairedEnv where
  /-- It has a twin.  Both have an environment around them, if they are not the outermost
  ones. -/
  | shared (outer : Option EnvId) (twin : EnvId) (twinOuter : Option EnvId)
  /-- It belongs to an extra scope. -/
  | extra (outer : EnvId)

/-- The environments of the first run, each at its number. -/
abbrev Pairing := List PairedEnv

/-- The marks of the environments from the given one out to the globals, and the
environment of the second run that corresponds to the given one. -/
inductive Pairing.Along (w : Pairing) : EnvId → List ScopeMark → EnvId → Prop where
  | outermost {env env' : EnvId} : w[env.index]? = some (.shared none env' none) →
      Along w env [] env'
  | shared {env env' outer outer' : EnvId} {marks : List ScopeMark} :
      w[env.index]? = some (.shared (some outer) env' (some outer')) →
      Along w outer marks outer' → Along w env (.shared :: marks) env'
  | extra {env env' outer : EnvId} {marks : List ScopeMark} :
      w[env.index]? = some (.extra outer) → Along w outer marks env' →
      Along w env (.extra :: marks) env'

theorem Pairing.getElem?_mono {w w' : Pairing} (hw : w <+: w') {i : Nat} {p : PairedEnv}
    (h : w[i]? = some p) : w'[i]? = some p := by
  obtain ⟨rest, rfl⟩ := hw
  rwa [List.getElem?_append_left (List.getElem?_eq_some_iff.mp h).1]

namespace Pairing.Along

variable {w w' : Pairing} {env env' : EnvId} {marks : List ScopeMark}

theorem mono (h : w.Along env marks env') (hw : w <+: w') : w'.Along env marks env' := by
  induction h with
  | outermost h => exact .outermost (getElem?_mono hw h)
  | shared h _ ih => exact .shared (getElem?_mono hw h) ih
  | extra h _ ih => exact .extra (getElem?_mono hw h) ih

/-- A new shared environment inside of another one. -/
theorem push (h : w.Along env marks env') (twin : EnvId) :
    Pairing.Along (w ++ [.shared (some env) twin (some env')]) ⟨w.length⟩ (.shared :: marks)
      twin :=
  .shared (by simp) (h.mono (List.prefix_append ..))

/-- A new extra environment inside of another one. -/
theorem pushExtra (h : w.Along env marks env') :
    Pairing.Along (w ++ [.extra env]) ⟨w.length⟩ (.extra :: marks) env' :=
  .extra (by simp) (h.mono (List.prefix_append ..))

/-- If the innermost scope is shared, the environment has a twin. -/
theorem twin (h : w.Along env marks env') (hm : Shifts marks 0 0) :
    ∃ outer outer', w[env.index]? = some (.shared outer env' outer') := by
  cases h with
  | outermost h => exact ⟨_, _, h⟩
  | shared h _ => exact ⟨_, _, h⟩
  | extra h _ => cases hm

end Pairing.Along

/-! ## Slots with the same names -/

/-- The names are the same, in the same order, and the values are related one by one. -/
abbrev Slots.Alike {α : Type} (R : α → α → Prop) (s s' : Slots α) : Prop :=
  Slots.Related .keep R s s'

/-! ## Functions, classes and values -/

section

variable (k : Reshaping) (w : Pairing)

/-- Functions of different shape.  There may be more scopes around the body than those in
which the function was made: that of the receiver, for a method that is not bound to one
yet.  An initializer has its receiver in a shared scope just outside. -/
inductive Closure.Reshaped (receiver : List ScopeMark) : Closure → Closure → Prop where
  | mk {name : Option String} {parameters : List Name} {body body' : List (Stmt Binding)}
      {scope scope' : EnvId} {marks : List ScopeMark} {isInitializer : Bool} :
      w.Along scope marks scope' →
      (isInitializer = true → Shifts (receiver ++ marks) 0 0) →
      StmtsReshaped k (.shared :: (receiver ++ marks)) body body' →
      Closure.Reshaped receiver ⟨name, parameters, body, scope, isInitializer⟩
        ⟨name, parameters, body', scope', isInitializer⟩

/-- Methods of different shape. -/
abbrev Closure.ReshapedMethod : Closure → Closure → Prop := Closure.Reshaped k w [.shared]

/-- Classes with methods of different shape. -/
inductive Class.Reshaped : Class → Class → Prop where
  | base {id : Nat} {name : String} {methods methods' : Slots Closure} :
      Slots.Alike (Closure.ReshapedMethod k w) methods methods' →
      Class.Reshaped (.mk id name none methods) (.mk id name none methods')
  | derived {id : Nat} {name : String} {parent parent' : Class}
      {methods methods' : Slots Closure} : Class.Reshaped parent parent' →
      Slots.Alike (Closure.ReshapedMethod k w) methods methods' →
      Class.Reshaped (.mk id name (some parent) methods) (.mk id name (some parent') methods')

/-- Values with functions of different shape. -/
inductive Value.Reshaped : Value → Value → Prop where
  | nil : Value.Reshaped .nil .nil
  | boolean (value : Bool) : Value.Reshaped (.boolean value) (.boolean value)
  | number (value : Float) : Value.Reshaped (.number value) (.number value)
  | string (value : String) : Value.Reshaped (.string value) (.string value)
  | function {code code' : Closure} (id : Nat) : Closure.Reshaped k w [] code code' →
      Value.Reshaped (.function id code) (.function id code')
  | native (id : Nat) (function : Native) :
      Value.Reshaped (.native id function) (.native id function)
  | classRef {c c' : Class} : Class.Reshaped k w c c' → Value.Reshaped (.classRef c) (.classRef c')
  | object {c c' : Class} (id : ObjectId) : Class.Reshaped k w c c' →
      Value.Reshaped (.object id c) (.object id c')

end

section

variable {k : Reshaping} {w w' : Pairing} (hw : w <+: w')
include hw

/-- Functions of another shape stay so while environments are added. -/
theorem Closure.Reshaped.mono {receiver : List ScopeMark} {code code' : Closure}
    (h : Closure.Reshaped k w receiver code code') : Closure.Reshaped k w' receiver code code' := by
  cases h with
  | mk ha hi hb => exact .mk (ha.mono hw) hi hb

/-- So do classes. -/
theorem Class.Reshaped.mono {c c' : Class} (h : Class.Reshaped k w c c') :
    Class.Reshaped k w' c c' := by
  induction h with
  | base hm => exact .base (Slots.Related.mono hm fun _ _ => Closure.Reshaped.mono hw)
  | derived _ hm ih =>
    exact .derived ih (Slots.Related.mono hm fun _ _ => Closure.Reshaped.mono hw)

/-- So do values. -/
theorem Value.Reshaped.mono {a a' : Value} (h : Value.Reshaped k w a a') :
    Value.Reshaped k w' a a' := by
  cases h with
  | function id hc => exact .function id (hc.mono hw)
  | classRef hc => exact .classRef (hc.mono hw)
  | object id hc => exact .object id (hc.mono hw)
  | nil => exact .nil
  | boolean value => exact .boolean value
  | number value => exact .number value
  | string value => exact .string value
  | native id function => exact .native id function

theorem Slots.Related.reshaped_mono {s s' : Slots Value}
    (h : Slots.Alike (Value.Reshaped k w) s s') : Slots.Alike (Value.Reshaped k w') s s' :=
  h.mono fun _ _ => Value.Reshaped.mono hw

end

/-! ### What a program sees of a value -/

namespace Class.Reshaped

variable {k : Reshaping} {w : Pairing} {c c' : Class}

theorem id (h : Reshaped k w c c') : c'.id = c.id := by cases h <;> rfl

theorem name (h : Reshaped k w c c') : c'.name = c.name := by cases h <;> rfl

theorem superclass (h : Reshaped k w c c') :
    Option.Rel (Class.Reshaped k w) c.superclass c'.superclass := by
  cases h with
  | base _ => exact .none
  | derived hc _ => exact .some hc

theorem methods (h : Reshaped k w c c') :
    Slots.Alike (Closure.ReshapedMethod k w) c.methods c'.methods := by
  cases h with
  | base hm => exact hm
  | derived _ hm => exact hm

/-- A class has the same methods, in another shape. -/
theorem findMethod? (h : Reshaped k w c c') (method : String) :
    Option.Rel (Closure.ReshapedMethod k w) (c.findMethod? method) (c'.findMethod? method) := by
  induction h with
  | base hm =>
    rw [Class.findMethod?_eq_or, Class.findMethod?_eq_or]
    exact rel_or (hm.get? method) .none
  | derived _ hm ih =>
    rw [Class.findMethod?_eq_or, Class.findMethod?_eq_or]
    exact rel_or (hm.get? method) ih

/-- A class takes as many arguments. -/
theorem arity (h : Reshaped k w c c') : c'.arity = c.arity := by
  have hm := h.findMethod? initializerName
  unfold Class.arity
  generalize c.findMethod? initializerName = o, c'.findMethod? initializerName = o' at hm ⊢
  cases hm with
  | none => rfl
  | some hc => cases hc; rfl

end Class.Reshaped

namespace Value.Reshaped

variable {k : Reshaping} {w : Pairing} {a a' b b' : Value}

/-- The text of a value tells no shapes. -/
theorem text (h : Reshaped k w a a') : a'.text = a.text := by
  cases h with
  | function id hc => cases hc; rfl
  | classRef hc => exact hc.name
  | object id hc => exact congrArg (· ++ " instance") hc.name
  | _ => rfl

theorem typeName (h : Reshaped k w a a') : a'.typeName = a.typeName := by cases h <;> rfl

theorem isTruthy (h : Reshaped k w a a') : a'.isTruthy = a.isTruthy := by cases h <;> rfl

theorem isString (h : Reshaped k w a a') : a'.isString = a.isString := by cases h <;> rfl

theorem arity? (h : Reshaped k w a a') : a'.arity? = a.arity? := by
  cases h with
  | function id hc => cases hc; rfl
  | classRef hc => exact congrArg some hc.arity
  | _ => rfl

/-- Values are equal as before. -/
theorem isEqual (h : Reshaped k w a a') (h' : Reshaped k w b b') :
    a'.isEqual b' = a.isEqual b := by
  cases h with
  | classRef hc =>
    cases h' with
    | classRef hd => simp only [Value.isEqual, hc.id, hd.id]
    | _ => rfl
  | _ => cases h' <;> rfl

theorem numbers? (h : Reshaped k w a a') (h' : Reshaped k w b b') :
    numbers? a' b' = numbers? a b := by
  cases h with
  | number x => cases h' <;> rfl
  | _ => rfl

theorem unary (op : UnaryOp) (h : Reshaped k w a a') : op.apply a' = op.apply a := by
  cases op with
  | not => rw [UnaryOp.apply, UnaryOp.apply, h.isTruthy]
  | negate => cases h <;> rfl

/-- An operator has the same outcome. -/
theorem binary (op : BinaryOp) (h : Reshaped k w a a') (h' : Reshaped k w b b') :
    op.apply a' b' = op.apply a b := by
  cases op <;> simp only [BinaryOp.apply, Value.add, Value.onNumbers, h.numbers? h', h.isEqual h',
    h.isString, h'.isString, h.text, h'.text]

theorem decides (op : LogicalOp) (h : Reshaped k w a a') : op.decides a' = op.decides a := by
  cases op <;> simp only [LogicalOp.decides, h.isTruthy]

end Value.Reshaped

/-- Slots with the same names have the same list of names. -/
theorem Slots.Related.names_eq {α : Type} {R : α → α → Prop} {s s' : Slots α}
    (h : Slots.Alike R s s') : s'.names = s.names :=
  h.map_entries fun _ _ _ _ => rfl

end ClassScript
