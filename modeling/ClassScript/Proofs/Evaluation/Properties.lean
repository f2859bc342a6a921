import ClassScript.Proofs.Evaluation.Succession

/-!
# Properties of objects

A property of an object is one of its fields, or else a method that its class finds.

What a field has for its value was given to it by an assignment to that field of that very
object (`Visit.Sets`), and a field that was set stays set.  Without such an assignment, the
field has a value at the end of a visit only if it had it at the start
(`Visit.fieldKept`).

A method that is *bound* to an object is its code in an environment of its own, which holds
the object as `this` (`Closure.Binds`).
-/

namespace ClassScript

open Run

/-- The visit is that of an assignment which gives the field of the object the value. -/
inductive Visit.Sets (settings : Settings) : Visit → ObjectId → String → Value → Prop where
  | mk {n depth : Nat} {env : EnvId} {object value : Expr Binding} {field : Name}
      {m m₁ m₂ : Machine} {o : ObjectId} {definition : Class} {a : Value} :
      evaluate settings n depth env object m = .ok (.object o definition) m₁ →
      evaluate settings n depth env value m₁ = .ok a m₂ →
      Sets settings ⟨n + 1, depth, .node env (.expr (.set object field value)), m⟩ o field.text a

/-- The field has the value only if it had it before. -/
def Run.FieldKept (o : ObjectId) (x : String) (a : Value) (m m' : Machine) : Prop :=
  m'.heap.field? o x = some a → m.heap.field? o x = some a

/-- The fields that have a value keep having one. -/
def Heap.FieldsStay (h h' : Heap) : Prop :=
  ∀ o x, (h.field? o x).isSome → (h'.field? o x).isSome

namespace Run

theorem fieldKept_quietLaw (o : ObjectId) (x : String) (a : Value) :
    QuietLaw (FieldKept o x a) where
  refl _ := id
  trans h12 h23 h := h12 (h23 h)
  event _ _ _ := id
  clock _ := id
  pushEnv _ _ _ := id
  pushObject m h := by rwa [Heap.field?_pushObject_eq] at h
  takeId _ := id

theorem fieldKept_obeys {code : Code} (hc : ¬ code.SetsField) (o : ObjectId) (x : String)
    (a : Value) : code.Obeys (FieldKept o x a) :=
  ⟨fun _ _ _ _ _ => id, fun h => absurd h hc⟩

theorem fieldsStay_stepLaw : StepLaw fun m m' => m.heap.FieldsStay m'.heap where
  refl _ _ _ := id
  trans h12 h23 o x h := h23 o x (h12 o x h)
  event _ _ _ _ _ := id
  clock _ _ _ := id
  pushEnv _ _ _ _ _ := id
  define _ _ _ _ _ _ := id
  pushObject m o x h := by rwa [Heap.field?_pushObject_eq]
  setField m object name value o x h := by
    rw [Heap.field?_setField_eq]
    split
    · rfl
    · exact h
  takeId _ _ _ := id

end Run

section

variable {settings : Settings} {v v' : Visit} {i : Nat} {o : ObjectId} {x : String} {a : Value}

/-! ## What an assignment does -/

theorem Code.SetsField.eq {code : Code} (hc : code.SetsField) :
    ∃ env object field value, code = .node env (.expr (.set object field value)) := by
  unfold Code.SetsField at hc
  split at hc
  · exact ⟨_, _, _, _, rfl⟩
  · cases hc

/-- The object of an assignment is the value of its first part. -/
theorem Visit.Sets.object (hs : v.Sets settings o x a) :
    ∃ fuel depth env e m definition m₁, v.Starts settings 0 ⟨fuel, depth, .node env (.expr e), m⟩ ∧
      evaluate settings fuel depth env e m = .ok (.object o definition) m₁ := by
  cases hs with
  | @mk n depth env object value field m m₁ m₂ _ definition _ h₁ h₂ =>
    exact ⟨n, depth, env, object, m, definition, m₁, ⟨rfl, .here ..⟩, h₁⟩

/-- The field has its value when the assignment is over. -/
theorem Visit.Sets.field? (hs : v.Sets settings o x a)
    (hlt : o.index < (v.lastHeap settings).objects.size) :
    (v.lastHeap settings).field? o x = some a := by
  cases hs with
  | @mk n depth env object value field m m₁ m₂ _ definition _ h₁ h₂ =>
    have hrun : evaluate settings (n + 1) depth env (.set object field value) m =
        .ok a { m₂ with heap := m₂.heap.setField o field.text a } := by
      simp only [evaluate, bind_apply, h₁, h₂]
      rfl
    have hlast : Visit.lastHeap settings ⟨n + 1, depth, .node env (.expr (.set object field value)),
        m⟩ = m₂.heap.setField o field.text a := by
      simp only [Visit.lastHeap, Visit.run, Code.run, hrun, lastMachine]
    rw [hlast] at hlt ⊢
    rw [Heap.field?_setField_eq, if_pos ⟨rfl, rfl, by simpa [Heap.setField] using hlt⟩]

/-! ## Where a value comes from -/

/-- An assignment to another field, or of another value, leaves the value if its parts do. -/
theorem Run.fieldKept_set {n depth : Nat} {env : EnvId} {object value : Expr Binding} {field : Name}
    {m : Machine}
    (hobject : FieldKept o x a m (lastMachine (evaluate settings n depth env object m)))
    (hvalue : ∀ o' definition m₁,
      evaluate settings n depth env object m = .ok (.object o' definition) m₁ →
      FieldKept o x a m₁ (lastMachine (evaluate settings n depth env value m₁)))
    (hother : ¬ Visit.Sets settings ⟨n + 1, depth, .node env (.expr (.set object field value)), m⟩
      o x a) :
    FieldKept o x a m
      (lastMachine (evaluate settings (n + 1) depth env (.set object field value) m)) := by
  have law := fieldKept_quietLaw o x a
  simp only [evaluate, bind_apply]
  cases h₁ : evaluate settings n depth env object m with
  | error e m₁ =>
    rw [h₁] at hobject
    exact hobject
  | ok b m₁ =>
    rw [h₁] at hobject
    cases b with
    | object o' definition =>
      have hvalue := hvalue o' definition m₁ h₁
      simp only [bind_apply]
      cases h₂ : evaluate settings n depth env value m₁ with
      | error e m₂ =>
        rw [h₂] at hvalue
        exact law.trans hobject hvalue
      | ok b m₂ =>
        rw [h₂] at hvalue
        refine law.trans (law.trans hobject hvalue) fun h => ?_
        have hset : (m₂.heap.setField o' field.text b).field? o x = some a := h
        rw [Heap.field?_setField_eq] at hset
        split at hset
        · rename_i hsame
          obtain ⟨rfl, rfl, -⟩ := hsame
          cases hset
          exact absurd (.mk h₁ h₂) hother
        · exact hset
    | _ => exact hobject

/-- Without an assignment to the field, a visit leaves its value. -/
theorem Visit.fieldKept (hv : ∀ u, v.Covers settings u → ¬ u.Sets settings o x a) :
    FieldKept o x a v.machine (lastMachine (v.run settings)) := by
  have law := fieldKept_quietLaw o x a
  induction hfuel : v.fuel generalizing v with
  | zero =>
    rw [Visit.run, hfuel, Code.run_zero]
    exact law.refl _
  | succ fuel ih =>
    have hpart : ∀ i v', v.Starts settings i v' → v'.fuel = fuel →
        FieldKept o x a v'.machine (lastMachine (v'.run settings)) := fun i v' hs hfuel' =>
      ih (fun u hu => hv u (.step hs trivial hu)) hfuel'
    by_cases hset : v.code.SetsField
    · obtain ⟨n, depth, code, m⟩ := v
      obtain ⟨env, object, field, value, rfl⟩ := hset.eq
      obtain rfl : n = fuel + 1 := hfuel
      refine fieldKept_set ?_ (fun o' definition m₁ h₁ => ?_) (hv _ (.refl _))
      · exact hpart 0 ⟨fuel, depth, .node env (.expr object), m⟩ ⟨rfl, .here ..⟩ rfl
      · exact hpart 1 ⟨fuel, depth, .node env (.expr value), m₁⟩ ⟨rfl, .call h₁ (.here ..)⟩ rfl
    · rw [Visit.run, hfuel, Code.run_succ]
      exact law.follow (Code.plan_all law settings v.depth (fieldKept_obeys hset o x a))
        fun i depth code m hm => hpart i ⟨fuel, depth, code, m⟩ ⟨hfuel, hm⟩ rfl

/-- Without an assignment to the field in the parts before it, a part starts with its value. -/
theorem Visit.Starts.fieldKept (hs : v.Starts settings i v')
    (hv : ∀ w u, v.StartsThen settings w v' → w.Covers settings u → ¬ u.Sets settings o x a) :
    FieldKept o x a v.machine v'.machine := by
  have law := fieldKept_quietLaw o x a
  obtain ⟨n, depth, code, m⟩ := v
  obtain ⟨fuel, depth', code', m'⟩ := v'
  obtain ⟨hfuel, hm⟩ := hs
  obtain rfl : n = fuel + 1 := hfuel
  have hpasses : ∀ u,
      (code.plan settings depth).Passes settings fuel m u ⟨fuel, depth', code', m'⟩ →
      FieldKept o x a u.machine (lastMachine (u.run settings)) := fun u hu =>
    Visit.fieldKept fun u' hu' => hv u u' ⟨fuel, rfl, hu⟩ hu'
  by_cases hset : code.SetsField
  · obtain ⟨env, object, field, value, rfl⟩ := hset.eq
    cases hm with
    | here => exact law.refl m
    | @call _ _ _ _ _ m₁ _ b _ _ _ h₁ hm =>
      cases b with
      | object o' definition =>
        cases hm with
        | here =>
          have hobject := hpasses ⟨fuel, depth, .node env (.expr object), m⟩ (.here h₁ (.here ..))
          rw [Visit.run, h₁] at hobject
          exact hobject
        | call h₂ hm =>
          cases hm with
          | act _ hm => cases hm
      | _ =>
        cases hm with
        | act hstep hm => cases hm
  · exact law.before (Code.plan_all law settings depth (fieldKept_obeys hset o x a)) hpasses hm

end

/-! ## Bound methods -/

/-- The function is the method with the object as `this`. -/
structure Closure.Binds (bound method : Closure) (object : Value) (h : Heap) : Prop where
  code : bound = { method with scope := bound.scope }
  parent : h.parent? bound.scope = some method.scope
  slots : h.slots bound.scope = Slots.single "this" object

namespace Run

theorem methodValue_binds (method : Closure) (object : Value) (m : Machine) :
    ∃ id bound m', methodValue method object m = .ok (.function id bound) m' ∧
      bound.Binds method object m'.heap :=
  ⟨_, _, _, rfl, rfl, Heap.parent?_pushEnv_self m.heap .., Heap.slots_pushEnv_self m.heap ..⟩

theorem binds_of_methodValue {method bound : Closure} {object : Value} {m m' : Machine} {id : Nat}
    (hr : methodValue method object m = .ok (.function id bound) m') :
    bound.Binds method object m'.heap := by
  obtain ⟨id', bound', m₁, hvalue, hbinds⟩ := methodValue_binds method object m
  rw [hvalue] at hr
  cases hr
  exact hbinds

/-- A field comes before the methods. -/
theorem getProperty_of_field {object : ObjectId} {definition : Class} {property : Name}
    {m : Machine} {a : Value} (hf : m.heap.field? object property.text = some a) :
    getProperty object definition property m = .ok a m := by
  unfold getProperty
  rw [bind_apply]
  dsimp only [get, getThe, MonadStateOf.get, EStateM.get]
  rw [hf]
  rfl

/-- Without a field, a property is a method. -/
theorem getProperty_of_method {object : ObjectId} {definition : Class} {property : Name}
    {m : Machine} {method : Closure} (hf : m.heap.field? object property.text = none)
    (hm : definition.findMethod? property.text = some method) :
    getProperty object definition property m =
      methodValue method (.object object definition) m := by
  unfold getProperty
  rw [bind_apply]
  dsimp only [get, getThe, MonadStateOf.get, EStateM.get]
  rw [hf, hm]

theorem getProperty_of_none {object : ObjectId} {definition : Class} {property : Name}
    {m : Machine} (hf : m.heap.field? object property.text = none)
    (hm : definition.findMethod? property.text = none) :
    getProperty object definition property m =
      .error (.failure ⟨.undefinedProperty property.text, property.line⟩) m := by
  unfold getProperty
  rw [bind_apply]
  dsimp only [get, getThe, MonadStateOf.get, EStateM.get]
  rw [hf, hm]
  rfl

/-- A method that is read from an object is bound to it. -/
theorem evaluate_get_of_method {settings : Settings} {n depth : Nat} {env : EnvId}
    {e : Expr Binding} {property : Name} {m m₁ : Machine} {object : ObjectId}
    {definition : Class} {method : Closure}
    (he : evaluate settings n depth env e m = .ok (.object object definition) m₁)
    (hf : m₁.heap.field? object property.text = none)
    (hm : definition.findMethod? property.text = some method) :
    evaluate settings (n + 1) depth env (.get e property) m =
      methodValue method (.object object definition) m₁ := by
  simp only [evaluate, bind_apply, he]
  exact getProperty_of_method hf hm

section

variable {env : EnvId} {d : Nat} {name : Name} {m : Machine} {parent : Class} {object : Value}
  (hs : readAt env d "super" m = .ok (.classRef parent) m)
  (ht : readAt env ((d : Int) - 1) "this" m = .ok object m)
include hs ht

/-- A method that `super` finds is bound to the object at hand. -/
theorem getSuper_of_method {method : Closure} (hm : parent.findMethod? name.text = some method) :
    getSuper env (.local d) name m = methodValue method object m := by
  simp only [getSuper, bind_apply, hs, ht, hm]

theorem getSuper_of_none (hm : parent.findMethod? name.text = none) :
    getSuper env (.local d) name m =
      .error (.failure ⟨.undefinedProperty name.text, name.line⟩) m := by
  simp only [getSuper, bind_apply, hs, ht, hm]
  rfl

end

end Run

/-- An initializer is bound to the object that is made. -/
theorem Visit.Starts.construction {settings : Settings} {v u : Visit} {i : Nat}
    {definition : Class} {values arguments : List Value} {bound method : Closure}
    (hs : v.Starts settings i u) (hc : v.code = .invoke (.classRef definition) values)
    (hm : definition.findMethod? initializerName = some method)
    (hu : u.code = .closure bound arguments) :
    bound.Binds method (.object v.heap.nextObject definition) u.heap := by
  obtain ⟨fuel, depth, code, m⟩ := v
  obtain ⟨fuel', depth', code', m'⟩ := u
  obtain rfl : code = .invoke (.classRef definition) values := hc
  obtain rfl : code' = .closure bound arguments := hu
  obtain ⟨-, hmeets⟩ := hs
  cases hmeets with
  | act hobject hmeets =>
    cases hobject
    simp only [hm] at hmeets
    cases hmeets with
    | act hbind hmeets =>
      cases hbind
      cases hmeets with
      | here =>
        exact ⟨rfl, Heap.parent?_pushEnv_self m.heap.pushObject ..,
          Heap.slots_pushEnv_self m.heap.pushObject ..⟩
      | call _ hmeets => cases hmeets

end ClassScript
