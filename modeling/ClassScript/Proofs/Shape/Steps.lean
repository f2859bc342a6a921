import ClassScript.Proofs.Evaluation.Simulation
import ClassScript.Proofs.Heap.Lookup
import ClassScript.Proofs.Shape.Heap

/-!
# Steps of programs of different shape

A step of a program and the same step of a program of different shape, taken on related
machines, come to related values or both abort for the same reason (`Run.Reshapes`), and
they note the same.

References are bound, so a local variable is found by its distance, and related distances
lead to twins.
-/

namespace ClassScript

/-- Completions with related values. -/
inductive Completion.Reshaped (k : Reshaping) (w : Pairing) : Completion → Completion → Prop where
  | normal : Completion.Reshaped k w .normal .normal
  | broke : Completion.Reshaped k w .broke .broke
  | returned {a a' : Value} : Value.Reshaped k w a a' →
      Completion.Reshaped k w (.returned a) (.returned a')

/-- Machines of programs of different shape. -/
structure Machine.Reshaped (k : Reshaping) (w : Pairing) (m m' : Machine) : Prop where
  heap : Heap.Reshaped k w m.heap m'.heap
  readings : m'.readings = m.readings
  events : m'.events = m.events

theorem Machine.Reshaped.noted {k : Reshaping} {w : Pairing} {m m' : Machine}
    (h : Machine.Reshaped k w m m') (settings : Settings) (level : Nat) (line : String) :
    Machine.Reshaped k w (m.noted settings level line) (m'.noted settings level line) := by
  unfold Machine.noted
  split
  · exact ⟨h.heap, h.readings, congrArg (Array.push · _) h.events⟩
  · exact h

namespace Run

/-- Runs are compared by their machines, whose heaps are related. -/
def reshaped (k : Reshaping) : Comparison Pairing where
  le w w' := w <+: w'
  refl := List.prefix_refl
  trans := List.IsPrefix.trans
  machines := Machine.Reshaped k
  aborts e e' := e' = e

/-- From related machines, two runs come to related values. -/
abbrev Reshapes (k : Reshaping) {α β : Type} (Q : Pairing → α → β → Prop) (w : Pairing)
    (x : Run α) (y : Run β) : Prop := (reshaped k).Simulates Q w x y

/-- Nothing is said of the results. -/
abbrev Ends : Pairing → Unit → Unit → Prop := fun _ _ _ => True

namespace Reshapes

variable {k : Reshaping} {w : Pairing} {env env' : EnvId} {marks : List ScopeMark}
  {settings : Settings}

theorem fail {α β : Type} {Q : Pairing → α → β → Prop} (error : RuntimeError) (line : Nat) :
    Reshapes k Q w (fail error line) (Run.fail error line) :=
  Comparison.Simulates.throw rfl

/-- Operators give plain values, which are related to themselves. -/
theorem orFail (line : Nat) {x x' : Except RuntimeError Value} (hx : x' = x)
    (hplain : ∀ a, x = .ok a → Value.Reshaped k w a a) :
    Reshapes k (Value.Reshaped k) w (orFail line x) (Run.orFail line x') := by
  subst hx
  cases x' with
  | ok a => exact Comparison.Simulates.pure (hplain a rfl)
  | error e => exact fail e line

/-- A change of the machine that gives nothing back. -/
theorem change {f f' : Machine → Machine}
    (h : ∀ m m', Machine.Reshaped k w m m' → Machine.Reshaped k w (f m) (f' m')) :
    Reshapes k Ends w (modify f) (modify f') :=
  fun m m' hm => .ok ((reshaped k).refl w) (h m m' hm) trivial

theorem emit (event : Event) : Reshapes k Ends w (emit event) (Run.emit event) :=
  change fun _ _ hm => ⟨hm.heap, hm.readings, congrArg (Array.push · event) hm.events⟩

/-- The same note. -/
theorem note (settings : Settings) (level : Nat) {line line' : String} (h : line' = line) :
    Reshapes k Ends w (if level ≤ settings.verbosity then Run.emit (.noted line) else pure ())
      (if level ≤ settings.verbosity then Run.emit (.noted line') else pure ()) := by
  subst h
  exact Comparison.Simulates.ite (emit _) (Comparison.Simulates.pure trivial)

/-! ## Steps -/

/-- New environments are paired. -/
theorem newEnv (ha : w.Along env marks env') {s s' : Slots Value}
    (hs : Slots.Alike (Value.Reshaped k w) s s') :
    Reshapes k (fun w' inner inner' => w'.Along inner (.shared :: marks) inner') w
      (newEnv env s) (Run.newEnv env' s') := by
  intro m m' hm
  have hnext : m.heap.nextEnv = ⟨w.length⟩ := congrArg EnvId.mk hm.heap.size
  have hpush : Machine.Reshaped k (w ++ [.shared (some env) m'.heap.nextEnv (some env')])
      (m.pushEnv env s) (m'.pushEnv env' s') :=
    ⟨hm.heap.pushEnv env env' hs, hm.readings, hm.events⟩
  rw [newEnv_apply, newEnv_apply, hnext]
  exact .ok (List.prefix_append ..) hpush (ha.push _)

/-- Objects have the same numbers on both sides. -/
theorem newObject : Reshapes k (fun _ o o' => o' = o) w newObject newObject :=
  fun _ _ hm => .ok ((reshaped k).refl w) ⟨hm.heap.pushObject, hm.readings, hm.events⟩
    (congrArg ObjectId.mk hm.heap.objects)

theorem newId : Reshapes k (fun _ n n' => n' = n) w newId newId :=
  fun _ _ hm => .ok ((reshaped k).refl w) ⟨hm.heap.takeId, hm.readings, hm.events⟩ hm.heap.nextId

/-- Declaring a name in a shared scope. -/
theorem define (ha : w.Along env marks env') (hs : Shifts marks 0 0) {a a' : Value}
    (hv : Value.Reshaped k w a a') (x : String) :
    Reshapes k Ends w (define env x a) (Run.define env' x a') := by
  obtain ⟨outer, outer', hp⟩ := ha.twin hs
  exact change fun _ _ hm => ⟨hm.heap.define hp hv x, hm.readings, hm.events⟩

theorem setField (object : ObjectId) (x : String) {a a' : Value} (ha : Value.Reshaped k w a a') :
    Reshapes k Ends w (modifyHeap (·.setField object x a))
      (modifyHeap (·.setField object x a')) :=
  change fun _ _ hm => ⟨hm.heap.setField object x ha, hm.readings, hm.events⟩

theorem readClock (settings : Settings) :
    Reshapes k (Value.Reshaped k) w (readClock settings) (Run.readClock settings) := by
  intro m m' hm
  unfold Run.readClock
  rw [hm.readings]
  exact .ok ((reshaped k).refl w) ⟨hm.heap, rfl, hm.events⟩ (.number _)

/-! ### Variables -/

/-- Shifted distances lead to paired environments, and so to related values. -/
theorem readAt (ha : w.Along env marks env') (d d' : Int) (hd : Shifts marks d.toNat d'.toNat)
    (x : String) :
    Reshapes k (Value.Reshaped k) w (readAt env d x) (Run.readAt env' d' x) := by
  intro m m' hm
  unfold Run.readAt Heap.getAt
  rcases hm.heap.ancestorEnv ha hd with ⟨outer, twin, more, more', ho, ho', hp⟩ | ⟨ho, ho'⟩
  · have hget := (hm.heap.twins _ _ _ _ hp).2.2.2.get? x
    rw [NameMap.keep_apply] at hget
    rw [ho, ho']
    dsimp only
    generalize (m.heap.slots outer).get? x = o, (m'.heap.slots twin).get? x = o' at hget ⊢
    cases hget with
    | none => exact .error ((reshaped k).refl w) hm rfl
    | some hv => exact .ok ((reshaped k).refl w) hm hv
  · rw [ho, ho']
    exact .error ((reshaped k).refl w) hm rfl

/-- A variable is assigned to in both of the paired environments. -/
theorem writeAt (ha : w.Along env marks env') (d d' : Int) (hd : Shifts marks d.toNat d'.toNat)
    (x : String) {a a' : Value} (hv : Value.Reshaped k w a a') :
    Reshapes k Ends w (writeAt env d x a) (Run.writeAt env' d' x a') := by
  intro m m' hm
  unfold Run.writeAt
  rcases hm.heap.ancestorEnv ha hd with ⟨outer, twin, more, more', ho, ho', hp⟩ | ⟨ho, ho'⟩
  · rw [ho, ho']
    exact .ok ((reshaped k).refl w) ⟨hm.heap.define hp hv x, hm.readings, hm.events⟩ trivial
  · rw [ho, ho']
    exact .error ((reshaped k).refl w) hm rfl

/-- The values of a global variable. -/
theorem get?_globals {h h' : Heap} (hh : Heap.Reshaped k w h h') (x : String) :
    Option.Rel (Value.Reshaped k w) ((h.slots .globals).get? x) ((h'.slots .globals).get? x) := by
  obtain ⟨outer, outer', hp⟩ := hh.globals.twin (.outermost 0)
  exact (hh.twins _ _ _ _ hp).2.2.2.get? x

/-- The globals of both sides are paired. -/
theorem readGlobal (name : Name) :
    Reshapes k (Value.Reshaped k) w (readByName .globals name) (readByName .globals name) := by
  intro m m' hm
  have hget := get?_globals hm.heap name.text
  unfold readByName
  rw [Heap.get?_globals, Heap.get?_globals]
  generalize (m.heap.slots .globals).get? name.text = o at hget ⊢
  generalize (m'.heap.slots .globals).get? name.text = o' at hget ⊢
  cases hget with
  | none => exact .error ((reshaped k).refl w) hm rfl
  | some hv => exact .ok ((reshaped k).refl w) hm hv

theorem writeGlobal (name : Name) {a a' : Value} (hv : Value.Reshaped k w a a') :
    Reshapes k Ends w (writeByName .globals name a) (writeByName .globals name a') := by
  intro m m' hm
  have hget := get?_globals hm.heap name.text
  obtain ⟨outer, outer', hp⟩ := hm.heap.globals.twin (.outermost 0)
  have hdefine := hm.heap.define hp hv name.text
  unfold writeByName
  rw [Heap.holder?_globals, Heap.holder?_globals]
  unfold Slots.contains
  generalize (m.heap.slots .globals).get? name.text = o at hget ⊢
  generalize (m'.heap.slots .globals).get? name.text = o' at hget ⊢
  cases hget with
  | none => exact .error ((reshaped k).refl w) hm rfl
  | some _ => exact .ok ((reshaped k).refl w) ⟨hdefine, hm.readings, hm.events⟩ trivial

section

variable (hb : settings.lookup = .bound)
include hb

theorem readBinding (ha : w.Along env marks env') (name : Name) {b b' : Binding}
    (hs : Binding.Shifted marks b b') :
    Reshapes k (Value.Reshaped k) w (read settings env name b)
      (Run.read settings env' name b') := by
  unfold Run.read
  rw [hb]
  cases hs with
  | global => exact readGlobal name
  | @«local» d d' hd => exact readAt ha d d' hd name.text

/-- A shifted reference reads a related value. -/
theorem read (ha : w.Along env marks env') {target target' : Reference Binding}
    (ht : Reference.Shifted marks target target') :
    Reshapes k (Value.Reshaped k) w (read settings env target.name target.binding)
      (Run.read settings env' target'.name target'.binding) := by
  cases ht with
  | mk name hs => exact readBinding hb ha name hs

/-- A shifted reference is assigned a related value. -/
theorem write (ha : w.Along env marks env') {target target' : Reference Binding}
    (ht : Reference.Shifted marks target target') {a a' : Value} (hv : Value.Reshaped k w a a') :
    Reshapes k Ends w (write settings env target.name target.binding a)
      (Run.write settings env' target'.name target'.binding a') := by
  cases ht with
  | mk name hs =>
    unfold Run.write
    rw [hb]
    cases hs with
    | global => exact writeGlobal name hv
    | @«local» d d' hd => exact writeAt ha d d' hd name.text hv

end

/-! ### Functions, methods and properties -/

theorem newFunction {code code' : Closure} (hc : Closure.Reshaped k w [] code code') :
    Reshapes k (Value.Reshaped k) w (newFunction code) (Run.newFunction code') :=
  newId.bind fun _ _ _ hw hn => by
    subst hn
    exact Comparison.Simulates.pure (.function _ (hc.mono hw))

/-- The environments of `this` are paired. -/
theorem bindMethod {method method' : Closure} (hc : Closure.ReshapedMethod k w method method')
    {object object' : Value} (ho : Value.Reshaped k w object object') :
    Reshapes k (fun w' => Closure.Reshaped k w' []) w (bindMethod method object)
      (Run.bindMethod method' object') := by
  cases hc with
  | mk ha hi hbody =>
    exact (newEnv ha (.single rfl ho)).bind fun w' scope scope' _ ha' =>
      Comparison.Simulates.pure (.mk ha' hi hbody)

theorem methodValue {method method' : Closure} (hc : Closure.ReshapedMethod k w method method')
    {object object' : Value} (ho : Value.Reshaped k w object object') :
    Reshapes k (Value.Reshaped k) w (methodValue method object) (Run.methodValue method' object') :=
  (bindMethod hc ho).bind fun _ _ _ _ hcode => newFunction hcode

/-- A property is a field of both sides or a method of both. -/
theorem getProperty (object : ObjectId) {c c' : Class} (hc : Class.Reshaped k w c c')
    (property : Name) :
    Reshapes k (Value.Reshaped k) w (getProperty object c property)
      (Run.getProperty object c' property) := by
  intro m m' hm
  have hfield := hm.heap.fields object property.text
  have hmethod := hc.findMethod? property.text
  unfold Run.getProperty
  rw [get_bind_apply, get_bind_apply]
  generalize m.heap.field? object property.text = o at hfield ⊢
  generalize m'.heap.field? object property.text = o' at hfield ⊢
  cases hfield with
  | some hv => exact .ok ((reshaped k).refl w) hm hv
  | none =>
    generalize c.findMethod? property.text = o, c'.findMethod? property.text = o' at hmethod ⊢
    cases hmethod with
    | some hcode => exact methodValue hcode (.object object hc) m m' hm
    | none => exact fail _ _ m m' hm

/-- `super` and the object of the method around it are found on both sides. -/
theorem getSuper (ha : w.Along env marks env') {b b' : Binding}
    (hs : Binding.ShiftedSuper marks b b') (method : Name) :
    Reshapes k (Value.Reshaped k) w (getSuper env b method) (Run.getSuper env' b' method) := by
  cases hs with
  | global => exact Comparison.Simulates.throw rfl
  | @«local» d d' hd hd' =>
    have hd' : Shifts marks ((d : Int) - 1).toNat ((d' : Int) - 1).toNat := by
      rwa [show ((d : Int) - 1).toNat = d - 1 by omega,
        show ((d' : Int) - 1).toNat = d' - 1 by omega]
    refine (readAt ha d d' hd "super").bind fun w' parent parent' hw hparent => ?_
    cases hparent with
    | classRef hc =>
      refine (readAt (ha.mono hw) _ _ hd' "this").bind fun w'' object object' hw' ho => ?_
      have hmethod := hc.findMethod? method.text
      generalize Class.findMethod? method.text _ = o at hmethod ⊢
      generalize Class.findMethod? method.text _ = o' at hmethod ⊢
      cases hmethod with
      | some hcode => exact methodValue (hcode.mono hw') ho
      | none => exact fail _ _
    | _ => exact Comparison.Simulates.throw rfl

/-! ### Calls -/

theorem argumentSlots : ∀ (parameters : List Name) {values values' : List Value}
    {slots slots' : Slots Value}, List.Forall₂ (Value.Reshaped k w) values values' →
      Slots.Alike (Value.Reshaped k w) slots slots' →
      Slots.Alike (Value.Reshaped k w) (argumentSlots parameters values slots)
        (Run.argumentSlots parameters values' slots')
  | [], _, _, _, _, _, hs => hs
  | _ :: _, _, _, _, _, .nil, hs => hs
  | name :: rest, _, _, _, _, .cons hv hvs, hs => argumentSlots rest hvs (hs.set hv name.text)

/-- Calls complete with related values. -/
theorem callValue {code code' : Closure} (hc : Closure.Reshaped k w [] code code')
    {completion completion' : Completion} (h : Completion.Reshaped k w completion completion') :
    Reshapes k (Value.Reshaped k) w (callValue code completion)
      (Run.callValue code' completion') := by
  cases hc with
  | @mk name parameters body body' scope scope' marks isInitializer ha hi _ =>
    unfold Run.callValue
    cases isInitializer with
    | true => exact readAt ha 0 0 (hi rfl) "this"
    | false =>
      cases h with
      | returned hv => exact Comparison.Simulates.pure hv
      | _ => exact Comparison.Simulates.pure .nil

/-- A call is refused on both sides or on neither. -/
theorem checkCall (settings : Settings) (depth : Nat) {callee callee' : Value}
    (hc : Value.Reshaped k w callee callee') (count line : Nat) :
    Reshapes k Ends w (checkCall settings depth callee count line)
      (Run.checkCall settings depth callee' count line) := by
  have hnote : callNote callee' count = callNote callee count := by
    unfold callNote
    rw [hc.text]
  intro m m' hm
  have hnoted := hm.noted settings 2 (callNote callee count)
  rw [checkCall_apply, checkCall_apply, hc.arity?, hnote]
  cases callee.arity? with
  | none => exact .error ((reshaped k).refl w) hm rfl
  | some arity =>
    dsimp only
    split
    · split
      · exact .error ((reshaped k).refl w) hnoted rfl
      · exact .ok ((reshaped k).refl w) hnoted trivial
    · exact .error ((reshaped k).refl w) hm rfl

/-! ### Declarations -/

theorem declareVariable (ha : w.Along env marks env') (hs : Shifts marks 0 0) (name : Name)
    {a a' : Value} (hv : Value.Reshaped k w a a') :
    Reshapes k Ends w (declareVariable settings env name a)
      (Run.declareVariable settings env' name a') :=
  (define ha hs hv name.text).bind fun _ _ _ _ _ => note settings 2 (by
    rw [variableNote, variableNote, hv.typeName, hv.text])

theorem declareFunction (ha : w.Along env marks env') (hs : Shifts marks 0 0)
    {f f' : Function Binding} (hf : Function.Reshaped k marks f f') :
    Reshapes k Ends w (declareFunction settings env f) (Run.declareFunction settings env' f') := by
  cases hf with
  | mk name parameters hbody =>
    have hcode : Closure.Reshaped k w [] ⟨some name.text, parameters, _, env, false⟩
        ⟨some name.text, parameters, _, env', false⟩ := .mk ha nofun hbody
    exact (newFunction hcode).bind fun w' _ _ hw hv =>
      (define (ha.mono hw) hs hv name.text).bind fun _ _ _ _ _ => note settings 2 rfl

/-- A superclass is a class on both sides or on neither. -/
theorem superclassOf (hb : settings.lookup = .bound) (ha : w.Along env marks env')
    {superclass superclass' : Option (Reference Binding)}
    (h : Option.Rel (Reference.Shifted marks) superclass superclass') :
    Reshapes k (fun w' parent parent' => parent.isSome = superclass.isSome ∧
        Option.Rel (Class.Reshaped k w') parent parent') w
      (superclassOf settings env superclass) (Run.superclassOf settings env' superclass') := by
  cases h with
  | none => exact Comparison.Simulates.pure ⟨rfl, .none⟩
  | some ht =>
    refine (read hb ha ht).bind fun w' a a' _ hv => ?_
    cases hv with
    | classRef hc => exact Comparison.Simulates.pure ⟨rfl, .some hc⟩
    | _ =>
      cases ht
      exact fail _ _

/-- A subclass opens a scope for `super` on both sides. -/
theorem methodScope (ha : w.Along env marks env') {parent parent' : Option Class}
    (hp : Option.Rel (Class.Reshaped k w) parent parent') :
    Reshapes k (fun w' scope scope' =>
        w'.Along scope (if parent.isSome then .shared :: marks else marks) scope') w
      (methodScope env parent) (Run.methodScope env' parent') := by
  cases hp with
  | none => exact Comparison.Simulates.pure ha
  | some hc => exact newEnv ha (.single rfl (.classRef hc))

theorem classMethods {scope scope' : EnvId} (ha : w.Along scope marks scope') :
    ∀ {methods methods' : List (Function Binding)} {slots slots' : Slots Closure},
      FunctionsReshaped k (.shared :: marks) methods methods' →
      Slots.Alike (Closure.ReshapedMethod k w) slots slots' →
      Slots.Alike (Closure.ReshapedMethod k w) (classMethods scope methods slots)
        (Run.classMethods scope' methods' slots')
  | _, _, _, _, .nil, hs => hs
  | _, _, _, _, .cons (.mk name parameters hbody) hrest, hs => by
    have hcode : Closure.ReshapedMethod k w
        ⟨some name.text, parameters, _, scope, name.text = initializerName⟩
        ⟨some name.text, parameters, _, scope', name.text = initializerName⟩ :=
      .mk ha (fun _ => .here) hbody
    have hmethods := classMethods ha hrest (hs.set hcode name.text)
    exact hmethods

/-- The note on a class depends on names only. -/
theorem classNote_eq {c c' : Class} (h : Class.Reshaped k w c c') : classNote c' = classNote c := by
  have hs := h.superclass
  unfold classNote
  rw [h.name, h.methods.names_eq]
  generalize c.superclass = o, c'.superclass = o' at hs ⊢
  cases hs with
  | none => rfl
  | some hc => dsimp only; rw [hc.name]

theorem declareClass (hb : settings.lookup = .bound) (ha : w.Along env marks env')
    (hs : Shifts marks 0 0) (name : Name) {superclass superclass' : Option (Reference Binding)}
    (hp : Option.Rel (Reference.Shifted marks) superclass superclass')
    {methods methods' : List (Function Binding)}
    (hm : FunctionsReshaped k (ScopeMark.ofClass superclass.isSome marks) methods methods') :
    Reshapes k Ends w (declareClass settings env name superclass methods)
      (Run.declareClass settings env' name superclass' methods') := by
  refine (superclassOf hb ha hp).bind fun w₁ parent parent' hw₁ hparent => ?_
  obtain ⟨hsome, hparent⟩ := hparent
  have ha₁ := ha.mono hw₁
  refine (define ha₁ hs .nil name.text).bind fun w₂ _ _ hw₂ _ => ?_
  have hparent₂ : Option.Rel (Class.Reshaped k w₂) parent parent' := by
    cases hparent with
    | none => exact .none
    | some hc => exact .some (hc.mono hw₂)
  refine (methodScope (ha₁.mono hw₂) hparent₂).bind fun w₃ scope scope' hw₃ ha₃ => ?_
  refine newId.bind fun w₄ n n' hw₄ hn => ?_
  subst hn
  rw [hsome] at ha₃
  have hmethods := classMethods (ha₃.mono hw₄) hm .empty
  have hclass : Class.Reshaped k w₄ (.mk n' name.text parent (Run.classMethods scope methods ∅))
      (.mk n' name.text parent' (Run.classMethods scope' methods' ∅)) := by
    cases hparent₂ with
    | none => exact .base hmethods
    | some hc => exact .derived ((hc.mono hw₃).mono hw₄) hmethods
  exact (define (((ha₁.mono hw₂).mono hw₃).mono hw₄) hs (.classRef hclass) name.text).bind
    fun _ _ _ _ _ => note settings 2 (classNote_eq hclass)

end Reshapes

end Run

end ClassScript
