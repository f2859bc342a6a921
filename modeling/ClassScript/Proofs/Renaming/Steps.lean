import ClassScript.Proofs.Evaluation.Simulation
import ClassScript.Proofs.Heap.Lookup
import ClassScript.Proofs.Renaming.Heap

/-!
# Steps under other names

A step of an evaluation and the same step under other names, taken on related machines,
come to related values or both abort, for the same failure or both for a variable that is
not set yet (`Run.Renames`).

References are bound, so a local variable is found by its distance, and its name is looked
up in one environment only.  There each of both steps uses its own name, and the change of
that environment relates the two.  Below verbosity 2 no variable is named in a note.
-/

namespace ClassScript

/-- Completions that differ in the names of local variables. -/
inductive Completion.Renamed (w : World) : Completion → Completion → Prop where
  | normal : Completion.Renamed w .normal .normal
  | broke : Completion.Renamed w .broke .broke
  | returned {a a' : Value} : Value.Renamed w a a' →
      Completion.Renamed w (.returned a) (.returned a')

/-- Reasons to abort that differ in the names of local variables. -/
inductive Abort.Renamed : Abort → Abort → Prop where
  | failure (f : Failure) : Abort.Renamed (.failure f) (.failure f)
  | unset (x y : String) : Abort.Renamed (.access (.unset x)) (.access (.unset y))
  | pastOutermost : Abort.Renamed (.access .pastOutermost) (.access .pastOutermost)
  | outOfFuel : Abort.Renamed .outOfFuel .outOfFuel

/-- Machines that differ in the names of local variables. -/
structure Machine.Renamed (w : World) (m m' : Machine) : Prop where
  heap : Heap.Renamed w m.heap m'.heap
  readings : m'.readings = m.readings
  events : m'.events = m.events

theorem Machine.Renamed.noted {w : World} {m m' : Machine} (h : Machine.Renamed w m m')
    (settings : Settings) (level : Nat) (line : String) :
    Machine.Renamed w (m.noted settings level line) (m'.noted settings level line) := by
  unfold Machine.noted
  split
  · exact ⟨h.heap, h.readings, congrArg (Array.push · _) h.events⟩
  · exact h

namespace Run

/-- Runs are compared by their machines, which differ in the names of local variables. -/
def renamed : Comparison World where
  le w w' := w <+: w'
  refl := List.prefix_refl
  trans := List.IsPrefix.trans
  machines := Machine.Renamed
  aborts := Abort.Renamed

/-- From machines that differ in the names of local variables, two runs come to related
values. -/
abbrev Renames {α β : Type} (Q : World → α → β → Prop) (w : World) (x : Run α) (y : Run β) :
    Prop := renamed.Simulates Q w x y

/-- All values are related. -/
abbrev Done : World → Unit → Unit → Prop := fun _ _ _ => True

namespace Renames

variable {w : World} {env : EnvId} {maps : List NameMap} {settings : Settings}

theorem fail {α β : Type} {Q : World → α → β → Prop} (error : RuntimeError) (line : Nat) :
    Renames Q w (fail error line) (Run.fail error line) :=
  Comparison.Simulates.throw (.failure _)

/-- The operators look at no names. -/
theorem orFail (line : Nat) {x x' : Except RuntimeError Value} (hx : x' = x)
    (hplain : ∀ a, x = .ok a → Value.Renamed w a a) :
    Renames Value.Renamed w (orFail line x) (Run.orFail line x') := by
  subst hx
  cases x' with
  | ok a => exact Comparison.Simulates.pure (hplain a rfl)
  | error e => exact fail e line

/-- A change of the machine that gives nothing back. -/
theorem change {f f' : Machine → Machine}
    (h : ∀ m m', Machine.Renamed w m m' → Machine.Renamed w (f m) (f' m')) :
    Renames Done w (modify f) (modify f') :=
  fun m m' hm => .ok (renamed.refl w) (h m m' hm) trivial

theorem emit (event : Event) : Renames Done w (emit event) (Run.emit event) :=
  change fun _ _ hm => ⟨hm.heap, hm.readings, congrArg (Array.push · event) hm.events⟩

/-! ## Steps -/

/-- A new environment takes the same number, and its variables have the names of its frame. -/
theorem newEnv (ha : w.Along env maps) (ρ : NameMap) {s s' : Slots Value}
    (hs : Slots.Related ρ (Value.Renamed w) s s') :
    Renames (fun w' inner inner' => inner' = inner ∧ w'.Along inner (ρ :: maps)) w
      (newEnv env s) (Run.newEnv env s') := by
  intro m m' hm
  have hnext : m.heap.nextEnv = ⟨w.length⟩ := congrArg EnvId.mk hm.heap.size
  have hnext' : m'.heap.nextEnv = ⟨w.length⟩ := congrArg EnvId.mk hm.heap.size'
  have hpush : Machine.Renamed (w ++ [⟨some env, ρ⟩]) (m.pushEnv env s) (m'.pushEnv env s') :=
    ⟨hm.heap.pushEnv env ρ hs, hm.readings, hm.events⟩
  rw [newEnv_apply, newEnv_apply, hnext, hnext']
  exact .ok (List.prefix_append ..) hpush ⟨rfl, ha.push ρ⟩

theorem newObject : Renames (fun _ o o' => o' = o) w newObject newObject :=
  fun _ _ hm => .ok (renamed.refl w) ⟨hm.heap.pushObject, hm.readings, hm.events⟩
    (congrArg ObjectId.mk hm.heap.objects)

theorem newId : Renames (fun _ n n' => n' = n) w newId newId :=
  fun _ _ hm => .ok (renamed.refl w) ⟨hm.heap.takeId, hm.readings, hm.events⟩ hm.heap.nextId

/-- A variable is set under the name that its frame gives it. -/
theorem define {frame : Frame} (hf : w[env.index]? = some frame) {a a' : Value}
    (ha : Value.Renamed w a a') (x : String) :
    Renames Done w (define env x a) (Run.define env (frame.names x) a') :=
  change fun _ _ hm => ⟨hm.heap.define hf ha x, hm.readings, hm.events⟩

/-- Fields keep their names. -/
theorem setField (object : ObjectId) (x : String) {a a' : Value} (ha : Value.Renamed w a a') :
    Renames Done w (modifyHeap (·.setField object x a))
      (modifyHeap (·.setField object x a')) :=
  change fun _ _ hm => ⟨hm.heap.setField object x ha, hm.readings, hm.events⟩

theorem readClock (settings : Settings) :
    Renames Value.Renamed w (readClock settings) (Run.readClock settings) := by
  intro m m' hm
  unfold Run.readClock
  rw [hm.readings]
  exact .ok (renamed.refl w) ⟨hm.heap, rfl, hm.events⟩ (.number _)

/-! ### Variables -/

/-- At a distance, a variable is read under the name that it has there. -/
theorem readAt (ha : w.Along env maps) (distance : Int) (x : String) :
    Renames Value.Renamed w (readAt env distance x)
      (Run.readAt env distance (NameMap.ofDistance maps distance.toNat x)) := by
  intro m m' hm
  unfold Run.readAt Heap.getAt
  rw [hm.heap.ancestorEnv_eq]
  cases ho : m.heap.ancestorEnv env distance with
  | error e =>
    cases Heap.eq_pastOutermost_of_ancestorEnv ho
    exact .error (renamed.refl w) hm .pastOutermost
  | ok outer =>
    obtain ⟨parent, hf⟩ := hm.heap.frame_of_ancestorEnv ha ho
    have hget := (hm.heap.slots outer _ hf).get? x
    dsimp only at hget ⊢
    generalize (m.heap.slots outer).get? x = o at hget ⊢
    generalize (m'.heap.slots outer).get? _ = o' at hget ⊢
    cases hget with
    | none => exact .error (renamed.refl w) hm (.unset _ _)
    | some hv => exact .ok (renamed.refl w) hm hv

/-- At a distance, a variable is assigned to under the name that it has there. -/
theorem writeAt (ha : w.Along env maps) (distance : Int) (x : String) {a a' : Value}
    (hv : Value.Renamed w a a') :
    Renames Done w (writeAt env distance x a)
      (Run.writeAt env distance (NameMap.ofDistance maps distance.toNat x) a') := by
  intro m m' hm
  unfold Run.writeAt
  rw [hm.heap.ancestorEnv_eq]
  cases ho : m.heap.ancestorEnv env distance with
  | error e =>
    cases Heap.eq_pastOutermost_of_ancestorEnv ho
    exact .error (renamed.refl w) hm .pastOutermost
  | ok outer =>
    obtain ⟨parent, hf⟩ := hm.heap.frame_of_ancestorEnv ha ho
    exact .ok (renamed.refl w) ⟨hm.heap.define hf hv x, hm.readings, hm.events⟩ trivial

/-- Globals keep their names. -/
theorem readGlobal (name : Name) :
    Renames Value.Renamed w (readByName .globals name) (readByName .globals name) := by
  intro m m' hm
  obtain ⟨parent, hf⟩ := hm.heap.globals.frame
  have hget := (hm.heap.slots .globals _ hf).get? name.text
  unfold readByName
  rw [Heap.get?_globals, Heap.get?_globals]
  rw [NameMap.ofDistance_nil, NameMap.keep_apply] at hget
  generalize (m.heap.slots .globals).get? name.text = o at hget ⊢
  generalize (m'.heap.slots .globals).get? name.text = o' at hget ⊢
  cases hget with
  | none => exact .error (renamed.refl w) hm (.failure _)
  | some hv => exact .ok (renamed.refl w) hm hv

theorem writeGlobal (name : Name) {a a' : Value} (hv : Value.Renamed w a a') :
    Renames Done w (writeByName .globals name a) (writeByName .globals name a') := by
  intro m m' hm
  obtain ⟨parent, hf⟩ := hm.heap.globals.frame
  have hget := (hm.heap.slots .globals _ hf).get? name.text
  have hdefine := hm.heap.define hf hv name.text
  unfold writeByName
  rw [Heap.holder?_globals, Heap.holder?_globals]
  unfold Slots.contains
  rw [NameMap.ofDistance_nil, NameMap.keep_apply] at hget hdefine
  generalize (m.heap.slots .globals).get? name.text = o at hget ⊢
  generalize (m'.heap.slots .globals).get? name.text = o' at hget ⊢
  cases hget with
  | none => exact .error (renamed.refl w) hm (.failure _)
  | some _ => exact .ok (renamed.refl w) ⟨hdefine, hm.readings, hm.events⟩ trivial

variable (hb : settings.lookup = .bound)

section

include hb

/-- A renamed reference reads the renamed variable. -/
theorem read (ha : w.Along env maps) (target : Reference Binding) :
    Renames Value.Renamed w (read settings env target.name target.binding)
      (Run.read settings env (target.rename maps).name (target.rename maps).binding) := by
  obtain ⟨name, binding⟩ := target
  unfold Run.read
  rw [hb]
  cases binding with
  | global => exact readGlobal name
  | «local» distance => exact readAt ha distance name.text

/-- A renamed reference assigns to the renamed variable. -/
theorem write (ha : w.Along env maps) (target : Reference Binding) {a a' : Value}
    (hv : Value.Renamed w a a') :
    Renames Done w (write settings env target.name target.binding a)
      (Run.write settings env (target.rename maps).name (target.rename maps).binding a') := by
  obtain ⟨name, binding⟩ := target
  unfold Run.write
  rw [hb]
  cases binding with
  | global => exact writeGlobal name hv
  | «local» distance => exact writeAt ha distance name.text hv

end

/-- A name that no change affects. -/
theorem readWord (ha : w.Along env maps) (distance : Int) {x : String}
    (hx : ∀ ρ : NameMap, ρ x = x) :
    Renames Value.Renamed w (Run.readAt env distance x) (Run.readAt env distance x) := by
  have hr := readAt ha distance x
  rwa [hx] at hr

/-! ### Functions, methods and properties -/

theorem newFunction {code code' : Closure} (hc : Closure.Renamed w [] code code') :
    Renames Value.Renamed w (newFunction code) (Run.newFunction code') :=
  newId.bind fun _ _ _ hw hn => by
    subst hn
    exact Comparison.Simulates.pure (.function _ (hc.mono hw))

/-- The environment of a bound method keeps the name `this`. -/
theorem bindMethod {method method' : Closure} (hc : Closure.RenamedMethod w method method')
    {object object' : Value} (ho : Value.Renamed w object object') :
    Renames (fun w' => Closure.Renamed w' []) w (bindMethod method object)
      (Run.bindMethod method' object') := by
  cases hc with
  | mk parameters isInitializer ρ ha hbody =>
    refine (newEnv ha .keep (.single rfl ho)).bind fun w' scope scope' _ hscope => ?_
    obtain ⟨rfl, ha'⟩ := hscope
    exact Comparison.Simulates.pure (.mk parameters isInitializer ρ ha' hbody)

theorem methodValue {method method' : Closure} (hc : Closure.RenamedMethod w method method')
    {object object' : Value} (ho : Value.Renamed w object object') :
    Renames Value.Renamed w (methodValue method object) (Run.methodValue method' object') :=
  (bindMethod hc ho).bind fun _ _ _ _ hcode => newFunction hcode

/-- Properties keep their names. -/
theorem getProperty (object : ObjectId) {c c' : Class} (hc : Class.Renamed w c c')
    (property : Name) :
    Renames Value.Renamed w (getProperty object c property)
      (Run.getProperty object c' property) := by
  intro m m' hm
  have hfield := hm.heap.fields object property.text
  have hmethod := hc.findMethod? property.text
  unfold Run.getProperty
  rw [get_bind_apply, get_bind_apply]
  generalize m.heap.field? object property.text = o at hfield ⊢
  generalize m'.heap.field? object property.text = o' at hfield ⊢
  cases hfield with
  | some hv => exact .ok (renamed.refl w) hm hv
  | none =>
    generalize c.findMethod? property.text = o, c'.findMethod? property.text = o' at hmethod ⊢
    cases hmethod with
    | some hcode => exact methodValue hcode (.object object hc) m m' hm
    | none => exact fail _ _ m m' hm

/-- `this` and `super` keep their names. -/
theorem getSuper (ha : w.Along env maps) (binding : Binding) (method : Name) :
    Renames Value.Renamed w (getSuper env binding method)
      (Run.getSuper env binding method) := by
  cases binding with
  | global => exact Comparison.Simulates.throw (.unset _ _)
  | «local» distance =>
    refine (readWord ha distance NameMap.map_super).bind fun w' parent parent' hw hparent => ?_
    cases hparent with
    | classRef hc =>
      refine (readWord (ha.mono hw) (distance - 1) NameMap.map_this).bind
        fun w'' object object' hw' ho => ?_
      have hmethod := hc.findMethod? method.text
      generalize Class.findMethod? method.text _ = o at hmethod ⊢
      generalize Class.findMethod? method.text _ = o' at hmethod ⊢
      cases hmethod with
      | some hcode => exact methodValue (hcode.mono hw') ho
      | none => exact fail _ _
    | _ => exact Comparison.Simulates.throw (.unset _ _)

/-! ### Calls -/

/-- Parameters have the names of the frame of their function. -/
theorem argumentSlots (ρ : NameMap) : ∀ (parameters : List Name) {values values' : List Value}
    {slots slots' : Slots Value}, List.Forall₂ (Value.Renamed w) values values' →
      Slots.Related ρ (Value.Renamed w) slots slots' →
      Slots.Related ρ (Value.Renamed w) (argumentSlots parameters values slots)
        (Run.argumentSlots (parameters.map (Name.rename ρ)) values' slots')
  | [], _, _, _, _, _, hs => hs
  | _ :: _, _, _, _, _, .nil, hs => hs
  | name :: rest, _, _, _, _, .cons hv hvs, hs => argumentSlots ρ rest hvs (hs.set hv name.text)

theorem callValue {receiver : List NameMap} {code code' : Closure}
    (hc : Closure.Renamed w receiver code code') {completion completion' : Completion}
    (h : Completion.Renamed w completion completion') :
    Renames Value.Renamed w (callValue code completion) (Run.callValue code' completion') := by
  cases hc with
  | mk parameters isInitializer ρ ha _ =>
    refine Comparison.Simulates.ite (readWord ha 0 NameMap.map_this) ?_
    cases h with
    | returned hv => exact Comparison.Simulates.pure hv
    | _ => exact Comparison.Simulates.pure .nil

/-! ### Declarations -/

/-- A note that may name a variable is not written. -/
theorem quiet (hquiet : settings.verbosity < 2) {level : Nat} (hlevel : 2 ≤ level)
    (line line' : String) :
    Renames Done w (if level ≤ settings.verbosity then Run.emit (.noted line) else pure ())
      (if level ≤ settings.verbosity then Run.emit (.noted line') else pure ()) := by
  rw [if_neg (by omega), if_neg (by omega)]
  exact Comparison.Simulates.pure trivial

/-- A declaration sets the variable that the innermost scope renames. -/
theorem define_declared (ha : w.Along env maps) {a a' : Value} (hv : Value.Renamed w a a')
    (x : String) :
    Renames Done w (Run.define env x a) (Run.define env (NameMap.ofDistance maps 0 x) a') := by
  obtain ⟨parent, hf⟩ := ha.frame
  exact define hf hv x

/-- The name of a function or class, which is not changed. -/
theorem define_kept (ha : w.Along env maps) {a a' : Value} (hv : Value.Renamed w a a')
    {x : String} (hx : NameMap.ofDistance maps 0 x = x) :
    Renames Done w (Run.define env x a) (Run.define env x a') := by
  have hd := define_declared ha hv x
  rwa [hx] at hd

/-- The superclass is the same class, with renamed methods. -/
theorem superclassOf (hb : settings.lookup = .bound) (ha : w.Along env maps)
    (superclass : Option (Reference Binding)) :
    Renames (fun w' parent parent' => parent.isSome = superclass.isSome ∧
        Option.Rel (Class.Renamed w') parent parent') w
      (superclassOf settings env superclass)
      (Run.superclassOf settings env (superclass.map (Reference.rename maps))) := by
  cases superclass with
  | none => exact Comparison.Simulates.pure ⟨rfl, .none⟩
  | some parent =>
    refine (read hb ha parent).bind fun w' a a' _ hv => ?_
    cases hv with
    | classRef hc => exact Comparison.Simulates.pure ⟨rfl, .some hc⟩
    | _ => exact fail _ _

theorem methodScope (ha : w.Along env maps) {parent parent' : Option Class}
    (hp : Option.Rel (Class.Renamed w) parent parent') :
    Renames (fun w' scope scope' => scope' = scope ∧
        w'.Along scope (if parent.isSome then .keep :: maps else maps)) w
      (methodScope env parent) (Run.methodScope env parent') := by
  cases hp with
  | none => exact Comparison.Simulates.pure ⟨rfl, ha⟩
  | some hc => exact newEnv ha .keep (.single rfl (.classRef hc))

theorem classMethods {scope : EnvId} (ha : w.Along scope maps) :
    ∀ {methods methods' : List (Function Binding)} {slots slots' : Slots Closure},
      FunctionsRenamed (.keep :: maps) methods methods' →
      Slots.Related .keep (Closure.RenamedMethod w) slots slots' →
      Slots.Related .keep (Closure.RenamedMethod w) (classMethods scope methods slots)
        (Run.classMethods scope methods' slots')
  | _, _, _, _, .nil, hs => hs
  | _, _, _, _, .cons (.mk name parameters ρ hbody) hrest, hs => by
    have hcode := @Closure.Renamed.mk w [.keep] (some name.text) _ _ scope maps parameters
      (decide (name.text = initializerName)) ρ ha hbody
    have hmethods := classMethods ha hrest (hs.set hcode name.text)
    exact hmethods

/-- A class keeps its name, and its methods are renamed. -/
theorem declareClass (hb : settings.lookup = .bound) (hquiet : settings.verbosity < 2)
    (ha : w.Along env maps) {name : Name} (hname : NameMap.ofDistance maps 0 name.text = name.text)
    {superclass : Option (Reference Binding)} {methods methods' : List (Function Binding)}
    (hm : FunctionsRenamed (classMaps superclass.isSome maps) methods methods') :
    Renames Done w (declareClass settings env name superclass methods)
      (Run.declareClass settings env name (superclass.map (Reference.rename maps)) methods') := by
  refine (superclassOf hb ha superclass).bind fun w₁ parent parent' hw₁ hp => ?_
  obtain ⟨hsome, hp⟩ := hp
  have ha₁ := ha.mono hw₁
  refine (define_kept ha₁ .nil hname).bind fun w₂ _ _ hw₂ _ => ?_
  have hp₂ : Option.Rel (Class.Renamed w₂) parent parent' := by
    cases hp with
    | none => exact .none
    | some hc => exact .some (hc.mono hw₂)
  refine (methodScope (ha₁.mono hw₂) hp₂).bind fun w₃ scope scope' hw₃ hscope => ?_
  obtain ⟨rfl, ha₃⟩ := hscope
  refine newId.bind fun w₄ n n' hw₄ hn => ?_
  subst hn
  rw [hsome] at ha₃
  have hmethods := classMethods (ha₃.mono hw₄) hm .empty
  have hclass : Class.Renamed w₄ (.mk n' name.text parent (Run.classMethods scope' methods ∅))
      (.mk n' name.text parent' (Run.classMethods scope' methods' ∅)) := by
    cases hp₂ with
    | none => exact .base hmethods
    | some hc => exact .derived ((hc.mono hw₃).mono hw₄) hmethods
  exact (define_kept (((ha₁.mono hw₂).mono hw₃).mono hw₄) (.classRef hclass) hname).bind
    fun _ _ _ _ _ => quiet hquiet (Nat.le_refl 2) _ _

/-- A variable is declared under its new name, when no note tells the name. -/
theorem declareVariable (hquiet : settings.verbosity < 2) (ha : w.Along env maps) (name : Name)
    {a a' : Value} (hv : Value.Renamed w a a') :
    Renames Done w (declareVariable settings env name a)
      (Run.declareVariable settings env (name.rename (.ofDistance maps 0)) a') :=
  (define_declared ha hv name.text).bind fun _ _ _ _ _ => quiet hquiet (Nat.le_refl 2) _ _

/-- A function keeps its name, when it is not the one that is renamed. -/
theorem declareFunction (hquiet : settings.verbosity < 2) (ha : w.Along env maps)
    {f f' : Function Binding} (hname : NameMap.ofDistance maps 0 f.name.text = f.name.text)
    (hf : Function.Renamed maps f f') :
    Renames Done w (declareFunction settings env f) (Run.declareFunction settings env f') := by
  cases hf with
  | mk name parameters ρ hbody =>
    exact (newFunction (.mk parameters false ρ ha hbody)).bind fun w' _ _ hw hv =>
      (define_kept (ha.mono hw) hv hname).bind fun _ _ _ _ _ =>
        quiet hquiet (Nat.le_refl 2) _ _

/-- A call is refused for the same reason. -/
theorem checkCall (settings : Settings) (depth : Nat) {callee callee' : Value}
    (hc : Value.Renamed w callee callee') (count line : Nat) :
    Renames Done w (checkCall settings depth callee count line)
      (Run.checkCall settings depth callee' count line) := by
  have hnote : callNote callee' count = callNote callee count := by
    unfold callNote
    rw [hc.text]
  intro m m' hm
  have hnoted := hm.noted settings 2 (callNote callee count)
  rw [checkCall_apply, checkCall_apply, hc.arity?, hnote]
  cases callee.arity? with
  | none => exact .error (renamed.refl w) hm (.failure _)
  | some arity =>
    dsimp only
    split
    · split
      · exact .error (renamed.refl w) hnoted (.failure _)
      · exact .ok (renamed.refl w) hnoted trivial
    · exact .error (renamed.refl w) hm (.failure _)

end Renames

end Run

end ClassScript
