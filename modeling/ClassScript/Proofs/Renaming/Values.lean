import ClassScript.Proofs.Heap.Classes
import ClassScript.Proofs.Renaming.Relation
import ClassScript.Value.Operators

/-!
# Values that differ in the names of local variables

Two runs that differ in the names of local variables make the same environments in the same
order.  A `World` lists them, each with its parent and with the change of its names.  It
grows while the runs go on, and what is there stays as it is.

Values are related in a world if they are the same but for the bodies of functions, which
are related in the environments where the functions were made.
-/

namespace ClassScript

/-! ## Worlds -/

/-- An environment that two runs have in common. -/
structure Frame where
  /-- The environment around it, if it is not the outermost one. -/
  parent : Option EnvId
  /-- The change of its names. -/
  names : NameMap

/-- The environments that two runs have in common, each at its number. -/
abbrev World := List Frame

/-- The changes of names along the environments from the given one out to the globals, which
keep their names. -/
inductive World.Along (w : World) : EnvId → List NameMap → Prop where
  | outermost {env : EnvId} : w[env.index]? = some ⟨none, .keep⟩ → Along w env []
  | inner {env outer : EnvId} {ρ : NameMap} {maps : List NameMap} :
      w[env.index]? = some ⟨some outer, ρ⟩ → Along w outer maps → Along w env (ρ :: maps)

theorem World.getElem?_mono {w w' : World} (hw : w <+: w') {i : Nat} {frame : Frame}
    (h : w[i]? = some frame) : w'[i]? = some frame := by
  obtain ⟨rest, rfl⟩ := hw
  rwa [List.getElem?_append_left (List.getElem?_eq_some_iff.mp h).1]

namespace World.Along

variable {w w' : World} {env : EnvId} {maps : List NameMap}

/-- Further environments change nothing for those that are there. -/
theorem mono (h : w.Along env maps) (hw : w <+: w') : w'.Along env maps := by
  induction h with
  | outermost h => exact .outermost (getElem?_mono hw h)
  | inner h _ ih => exact .inner (getElem?_mono hw h) ih

/-- The names of the environment are changed as the first change says. -/
theorem frame (h : w.Along env maps) :
    ∃ parent, w[env.index]? = some ⟨parent, .ofDistance maps 0⟩ := by
  cases h with
  | outermost h => exact ⟨_, h⟩
  | inner h _ => exact ⟨_, h⟩

/-- A new environment inside of another one. -/
theorem push (h : w.Along env maps) (ρ : NameMap) :
    World.Along (w ++ [⟨some env, ρ⟩]) ⟨w.length⟩ (ρ :: maps) :=
  .inner (by simp) (h.mono (List.prefix_append ..))

end World.Along

/-! ## Slots -/

/-- The entries are related one by one, under names that are changed. -/
def Slots.Related {α : Type} (ρ : NameMap) (R : α → α → Prop) (s s' : Slots α) : Prop :=
  List.Forall₂ (fun a b => b.1 = ρ a.1 ∧ R a.2 b.2) s.entries s'.entries

namespace Slots.Related

variable {α : Type} {ρ : NameMap} {R R' : α → α → Prop} {s s' : Slots α}

theorem empty : Related ρ R ∅ ∅ := .nil

theorem single {a b : α} {x y : String} (hxy : y = ρ x) (h : R a b) :
    Related ρ R (Slots.single x a) (Slots.single y b) :=
  .cons ⟨hxy, h⟩ .nil

theorem mono (h : Related ρ R s s') (hR : ∀ a b, R a b → R' a b) : Related ρ R' s s' :=
  List.Forall₂.imp (fun _ _ hab => ⟨hab.1, hR _ _ hab.2⟩) h

/-- A value is found under its new name. -/
theorem get? (h : Related ρ R s s') (x : String) :
    Option.Rel R (s.get? x) (s'.get? (ρ x)) := by
  obtain ⟨entries⟩ := s
  obtain ⟨entries'⟩ := s'
  unfold Related at h
  unfold Slots.get?
  dsimp only at h ⊢
  induction h with
  | nil => exact .none
  | @cons a b rest rest' hab _ ih =>
    obtain ⟨y, u⟩ := a
    obtain ⟨y', v⟩ := b
    obtain ⟨rfl, huv⟩ := hab
    simp only [find?, ρ.injective.eq_iff]
    split
    · exact .some huv
    · exact ih

/-- A value is set under its new name. -/
theorem set (h : Related ρ R s s') {a b : α} (hab : R a b) (x : String) :
    Related ρ R (s.set x a) (s'.set (ρ x) b) := by
  obtain ⟨entries⟩ := s
  obtain ⟨entries'⟩ := s'
  unfold Related Slots.set at *
  dsimp only at h ⊢
  induction h with
  | nil => exact .cons ⟨rfl, hab⟩ .nil
  | @cons c d rest rest' hcd hrest ih =>
    obtain ⟨y, u⟩ := c
    obtain ⟨y', v⟩ := d
    obtain ⟨rfl, huv⟩ := hcd
    simp only [replace, ρ.injective.eq_iff]
    split
    · exact .cons ⟨rfl, hab⟩ hrest
    · exact .cons ⟨rfl, huv⟩ ih

/-- Where the names are kept, the entries show the same in every way in which related values
show the same. -/
theorem map_entries {β : Type} {f : String × α → β} (h : Related .keep R s s')
    (hf : ∀ x a b, R a b → f (x, b) = f (x, a)) : s'.entries.map f = s.entries.map f := by
  obtain ⟨entries⟩ := s
  obtain ⟨entries'⟩ := s'
  unfold Related at h
  dsimp only at h ⊢
  induction h with
  | nil => rfl
  | @cons a b rest rest' hab _ ih =>
    obtain ⟨hname, hvalue⟩ := hab
    have hb : f b = f (a.1, b.2) := congrArg (fun x => f (x, b.2)) hname
    rw [List.map_cons, List.map_cons, ih, hb, hf a.1 a.2 b.2 hvalue]

end Slots.Related

/-! ## Functions, classes and values -/

/-- Functions that differ in the names of local variables.  There may be more scopes around
the body than those in which the function was made: that of the receiver, for a method that
is not bound to one yet. -/
inductive Closure.Renamed (w : World) (receiver : List NameMap) : Closure → Closure → Prop where
  | mk {name : Option String} {body body' : List (Stmt Binding)} {scope : EnvId}
      {maps : List NameMap} (parameters : List Name) (isInitializer : Bool) (ρ : NameMap) :
      w.Along scope maps → StmtsRenamed (ρ :: (receiver ++ maps)) body body' →
      Closure.Renamed w receiver ⟨name, parameters, body, scope, isInitializer⟩
        ⟨name, parameters.map (Name.rename ρ), body', scope, isInitializer⟩

/-- Methods that differ in the names of local variables. -/
abbrev Closure.RenamedMethod (w : World) : Closure → Closure → Prop := Closure.Renamed w [.keep]

/-- Classes that differ in the names of local variables. -/
inductive Class.Renamed (w : World) : Class → Class → Prop where
  | base {id : Nat} {name : String} {methods methods' : Slots Closure} :
      Slots.Related .keep (Closure.RenamedMethod w) methods methods' →
      Class.Renamed w (.mk id name none methods) (.mk id name none methods')
  | derived {id : Nat} {name : String} {parent parent' : Class}
      {methods methods' : Slots Closure} : Class.Renamed w parent parent' →
      Slots.Related .keep (Closure.RenamedMethod w) methods methods' →
      Class.Renamed w (.mk id name (some parent) methods) (.mk id name (some parent') methods')

/-- Values that differ in the names of local variables. -/
inductive Value.Renamed (w : World) : Value → Value → Prop where
  | nil : Value.Renamed w .nil .nil
  | boolean (value : Bool) : Value.Renamed w (.boolean value) (.boolean value)
  | number (value : Float) : Value.Renamed w (.number value) (.number value)
  | string (value : String) : Value.Renamed w (.string value) (.string value)
  | function {code code' : Closure} (id : Nat) : Closure.Renamed w [] code code' →
      Value.Renamed w (.function id code) (.function id code')
  | native (id : Nat) (function : Native) :
      Value.Renamed w (.native id function) (.native id function)
  | classRef {c c' : Class} : Class.Renamed w c c' → Value.Renamed w (.classRef c) (.classRef c')
  | object {c c' : Class} (id : ObjectId) : Class.Renamed w c c' →
      Value.Renamed w (.object id c) (.object id c')

section

variable {w w' : World} (hw : w <+: w')
include hw

/-- Renamed functions stay renamed while environments are added. -/
theorem Closure.Renamed.mono {receiver : List NameMap} {code code' : Closure}
    (h : Closure.Renamed w receiver code code') : Closure.Renamed w' receiver code code' := by
  cases h with
  | mk parameters isInitializer ρ ha hb => exact .mk parameters isInitializer ρ (ha.mono hw) hb

/-- So do renamed classes. -/
theorem Class.Renamed.mono {c c' : Class} (h : Class.Renamed w c c') :
    Class.Renamed w' c c' := by
  induction h with
  | base hm => exact .base (Slots.Related.mono hm fun _ _ => Closure.Renamed.mono hw)
  | derived _ hm ih => exact .derived ih (Slots.Related.mono hm fun _ _ => Closure.Renamed.mono hw)

/-- So do renamed values. -/
theorem Value.Renamed.mono {a a' : Value} (h : Value.Renamed w a a') : Value.Renamed w' a a' := by
  cases h with
  | function id hc => exact .function id (hc.mono hw)
  | classRef hc => exact .classRef (hc.mono hw)
  | object id hc => exact .object id (hc.mono hw)
  | nil => exact .nil
  | boolean value => exact .boolean value
  | number value => exact .number value
  | string value => exact .string value
  | native id function => exact .native id function

theorem Slots.Related.values_mono {ρ : NameMap} {s s' : Slots Value}
    (h : Related ρ (Value.Renamed w) s s') : Related ρ (Value.Renamed w') s s' :=
  h.mono fun _ _ => Value.Renamed.mono hw

end

/-! ### What a program sees of a value -/

theorem rel_or {α : Type} {R : α → α → Prop} {o o' d d' : Option α}
    (h : Option.Rel R o o') (hd : Option.Rel R d d') : Option.Rel R (o.or d) (o'.or d') := by
  cases h with
  | none => exact hd
  | some h => exact .some h

namespace Class.Renamed

variable {w : World} {c c' : Class}

theorem id (h : Renamed w c c') : c'.id = c.id := by cases h <;> rfl

theorem name (h : Renamed w c c') : c'.name = c.name := by cases h <;> rfl

/-- Methods keep their names. -/
theorem findMethod? (h : Renamed w c c') (method : String) :
    Option.Rel (Closure.RenamedMethod w) (c.findMethod? method) (c'.findMethod? method) := by
  induction h with
  | base hm =>
    rw [Class.findMethod?_eq_or, Class.findMethod?_eq_or]
    exact rel_or (hm.get? method) .none
  | derived _ hm ih =>
    rw [Class.findMethod?_eq_or, Class.findMethod?_eq_or]
    exact rel_or (hm.get? method) ih

/-- A class takes as many arguments. -/
theorem arity (h : Renamed w c c') : c'.arity = c.arity := by
  have hm := h.findMethod? initializerName
  unfold Class.arity
  generalize c.findMethod? initializerName = o, c'.findMethod? initializerName = o' at hm ⊢
  cases hm with
  | none => rfl
  | some hc =>
    cases hc with
    | mk parameters _ _ _ _ => exact List.length_map ..

end Class.Renamed

namespace Value.Renamed

variable {w : World} {a a' b b' : Value}

/-- The text of a value tells no names of variables. -/
theorem text (h : Renamed w a a') : a'.text = a.text := by
  cases h with
  | function id hc => cases hc; rfl
  | classRef hc => exact hc.name
  | object id hc => exact congrArg (· ++ " instance") hc.name
  | _ => rfl

theorem typeName (h : Renamed w a a') : a'.typeName = a.typeName := by cases h <;> rfl

theorem isTruthy (h : Renamed w a a') : a'.isTruthy = a.isTruthy := by cases h <;> rfl

theorem isString (h : Renamed w a a') : a'.isString = a.isString := by cases h <;> rfl

theorem arity? (h : Renamed w a a') : a'.arity? = a.arity? := by
  cases h with
  | function id hc =>
    cases hc
    exact congrArg some (List.length_map ..)
  | classRef hc => exact congrArg some hc.arity
  | _ => rfl

/-- Values are equal as before. -/
theorem isEqual (h : Renamed w a a') (h' : Renamed w b b') : a'.isEqual b' = a.isEqual b := by
  cases h with
  | classRef hc =>
    cases h' with
    | classRef hd => simp only [Value.isEqual, hc.id, hd.id]
    | _ => rfl
  | _ => cases h' <;> rfl

theorem numbers? (h : Renamed w a a') (h' : Renamed w b b') : numbers? a' b' = numbers? a b := by
  cases h with
  | number x => cases h' <;> rfl
  | _ => rfl

/-- The results of operators have no functions in them. -/
theorem unary (op : UnaryOp) (h : Renamed w a a') : op.apply a' = op.apply a := by
  cases op with
  | not => rw [UnaryOp.apply, UnaryOp.apply, h.isTruthy]
  | negate => cases h <;> rfl

/-- An operator has the same outcome. -/
theorem binary (op : BinaryOp) (h : Renamed w a a') (h' : Renamed w b b') :
    op.apply a' b' = op.apply a b := by
  cases op <;> simp only [BinaryOp.apply, Value.add, Value.onNumbers, h.numbers? h', h.isEqual h',
    h.isString, h'.isString, h.text, h'.text]

theorem decides (op : LogicalOp) (h : Renamed w a a') : op.decides a' = op.decides a := by
  cases op <;> simp only [LogicalOp.decides, h.isTruthy]

end Value.Renamed

end ClassScript
