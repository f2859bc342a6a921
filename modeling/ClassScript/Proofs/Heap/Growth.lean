import ClassScript.Evaluation

/-!
# Growth of the heap

No step of an evaluation takes anything away from the heap.  Environments are
added and keep their parents, and a variable that is set stays set.
`Heap.Grows` is this order, and `Heap.Extends` that of the whole heap.

`Heap.Chain h env envs` says that the walk from `env` to its parents passes
exactly the environments `envs` and then arrives at the globals.  A chain is
kept when the heap grows (`Chain.mono`).
-/

namespace ClassScript

namespace Heap

/-! ## Environments after a step -/

/-- Whether an environment has a variable of the given name. -/
def Has (h : Heap) (env : EnvId) (name : String) : Prop := (h.slots env).contains name = true

@[simp] theorem size_pushEnv (h : Heap) (parent : Option EnvId) (slots : Slots Value) :
    (h.pushEnv parent slots).environments.size = h.environments.size + 1 := by
  simp [pushEnv]

@[simp] theorem size_define (h : Heap) (env : EnvId) (name : String) (value : Value) :
    (h.define env name value).environments.size = h.environments.size := by
  simp [define]

/-- A new environment leaves the variables of the others. -/
theorem slots_pushEnv_of_lt {h : Heap} {env : EnvId} (hlt : env.index < h.environments.size)
    (parent : Option EnvId) (slots : Slots Value) :
    (h.pushEnv parent slots).slots env = h.slots env := by
  simp [Heap.slots, pushEnv, Array.getElem?_push_lt, hlt]

/-- A new environment has the variables that it was made with. -/
@[simp] theorem slots_pushEnv_self (h : Heap) (parent : Option EnvId) (slots : Slots Value) :
    (h.pushEnv parent slots).slots h.nextEnv = slots := by
  simp [Heap.slots, pushEnv, nextEnv]

/-- A new environment leaves the parents of the others. -/
theorem parent?_pushEnv_of_lt {h : Heap} {env : EnvId} (hlt : env.index < h.environments.size)
    (parent : Option EnvId) (slots : Slots Value) :
    (h.pushEnv parent slots).parent? env = h.parent? env := by
  simp [Heap.parent?, pushEnv, Array.getElem?_push_lt, hlt]

@[simp] theorem parent?_pushEnv_self (h : Heap) (parent : Option EnvId) (slots : Slots Value) :
    (h.pushEnv parent slots).parent? h.nextEnv = parent := by
  simp [Heap.parent?, pushEnv, nextEnv]

/-- Setting a variable changes no parent. -/
@[simp] theorem parent?_define (h : Heap) (env other : EnvId) (name : String) (value : Value) :
    (h.define env name value).parent? other = h.parent? other := by
  simp only [parent?, define, Array.getElem?_modify]
  by_cases hi : env.index = other.index
  · cases h.environments[other.index]? <;> simp [hi]
  · simp [hi]

theorem slots_define_self {h : Heap} {env : EnvId} (hlt : env.index < h.environments.size)
    (name : String) (value : Value) :
    (h.define env name value).slots env = (h.slots env).set name value := by
  simp only [slots, define, Array.getElem?_modify]
  simp [hlt]

/-- Setting a variable leaves the other environments. -/
theorem slots_define_of_ne {h : Heap} {env other : EnvId} (hne : env ≠ other) (name : String)
    (value : Value) : (h.define env name value).slots other = h.slots other := by
  have hidx : env.index ≠ other.index := fun he => hne (by cases env; cases other; simp_all)
  simp [slots, define, Array.getElem?_modify, hidx]

/-- An environment with a variable was made. -/
theorem lt_size_of_has {h : Heap} {env : EnvId} {name : String} (hh : h.Has env name) :
    env.index < h.environments.size := by
  by_cases hlt : env.index < h.environments.size
  · exact hlt
  · simp [Has, slots, hlt, Slots.contains, Slots.get?, EmptyCollection.emptyCollection,
      Slots.empty, Slots.find?] at hh

theorem lt_size_of_parent? {h : Heap} {env p : EnvId} (hp : h.parent? env = some p) :
    env.index < h.environments.size := by
  by_cases hlt : env.index < h.environments.size
  · exact hlt
  · simp [parent?, hlt] at hp

/-- A variable that is set is there, and no other variable comes with it. -/
theorem has_define_iff {h : Heap} {env other : EnvId} (hlt : env.index < h.environments.size)
    {name x : String} {value : Value} :
    (h.define env name value).Has other x ↔ h.Has other x ∨ (other = env ∧ x = name) := by
  unfold Has
  by_cases he : env = other
  · subst he
    rw [slots_define_self hlt]
    by_cases hx : name = x
    · subst hx
      simp [Slots.contains]
    · simp [Slots.contains, Slots.get?_set_of_ne _ _ hx, Ne.symm hx]
  · rw [slots_define_of_ne he]
    simp [Ne.symm he]

theorem has_define {h : Heap} {env : EnvId} (hlt : env.index < h.environments.size)
    (name : String) (value : Value) : (h.define env name value).Has env name :=
  (has_define_iff hlt).mpr (.inr ⟨rfl, rfl⟩)

/-! ## Fields after a step -/

/-- A field of an object after one is set. -/
theorem field?_setField_eq (h : Heap) (object other : ObjectId) (x y : String) (a : Value) :
    (h.setField object x a).field? other y =
      if object = other ∧ x = y ∧ object.index < h.objects.size then some a
      else h.field? other y := by
  obtain ⟨i⟩ := object
  obtain ⟨j⟩ := other
  simp only [field?, setField, Array.getElem?_modify, ObjectId.mk.injEq]
  by_cases hij : i = j
  · subst hij
    by_cases hi : i < h.objects.size
    · by_cases hxy : x = y
      · subst hxy
        simp [hi]
      · simp [hi, hxy, Slots.get?_set_of_ne _ _ hxy]
    · simp [hi]
  · simp [hij]

theorem field?_pushObject_eq (h : Heap) (object : ObjectId) (x : String) :
    h.pushObject.field? object x = h.field? object x := by
  simp only [field?, pushObject, Array.getElem?_push]
  by_cases hi : object.index = h.objects.size
  · simp [hi]
    rfl
  · simp [hi]

/-! ## The order -/

/-- The second heap has everything that the first one has: its environments with
their parents, and their variables. -/
structure Grows (h h' : Heap) : Prop where
  size : h.environments.size ≤ h'.environments.size
  parent : ∀ env : EnvId, env.index < h.environments.size → h'.parent? env = h.parent? env
  has : ∀ (env : EnvId) (name : String), h.Has env name → h'.Has env name

theorem Grows.refl (h : Heap) : h.Grows h := ⟨Nat.le_refl _, fun _ _ => rfl, fun _ _ hx => hx⟩

theorem Grows.trans {h₁ h₂ h₃ : Heap} (h12 : h₁.Grows h₂) (h23 : h₂.Grows h₃) : h₁.Grows h₃ where
  size := Nat.le_trans h12.size h23.size
  parent env hlt := by rw [h23.parent env (Nat.lt_of_lt_of_le hlt h12.size), h12.parent env hlt]
  has env name hx := h23.has env name (h12.has env name hx)

/-- Making an environment is growth. -/
theorem grows_pushEnv (h : Heap) (parent : Option EnvId) (slots : Slots Value) :
    h.Grows (h.pushEnv parent slots) where
  size := by simp
  parent _ hlt := parent?_pushEnv_of_lt hlt ..
  has env name hx := by
    unfold Has
    rw [slots_pushEnv_of_lt (lt_size_of_has hx)]
    exact hx

/-- Setting a variable is growth. -/
theorem grows_define (h : Heap) (env : EnvId) (name : String) (value : Value) :
    h.Grows (h.define env name value) where
  size := by simp
  parent _ _ := parent?_define ..
  has other x hx := by
    by_cases he : env = other
    · subst he
      exact (has_define_iff (lt_size_of_has hx)).mpr (.inl hx)
    · unfold Has
      rw [slots_define_of_ne he]
      exact hx

/-- Objects and numbers do not matter to the order. -/
theorem grows_of_environments_eq {h h' : Heap} (he : h'.environments = h.environments) :
    h.Grows h' where
  size := Nat.le_of_eq (by rw [he])
  parent env _ := by simp only [parent?, he]
  has env name hx := by
    simp only [Has, slots, he] at hx ⊢
    exact hx

/-- Nothing is taken away from the heap. -/
structure Extends (h h' : Heap) : Prop where
  grows : h.Grows h'
  objects : h.objects.size ≤ h'.objects.size
  nextId : h.nextId ≤ h'.nextId

theorem Extends.refl (h : Heap) : h.Extends h := ⟨.refl h, Nat.le_refl _, Nat.le_refl _⟩

theorem Extends.trans {h₁ h₂ h₃ : Heap} (h12 : h₁.Extends h₂) (h23 : h₂.Extends h₃) :
    h₁.Extends h₃ :=
  ⟨h12.grows.trans h23.grows, Nat.le_trans h12.objects h23.objects,
    Nat.le_trans h12.nextId h23.nextId⟩

theorem extends_pushEnv (h : Heap) (parent : Option EnvId) (slots : Slots Value) :
    h.Extends (h.pushEnv parent slots) :=
  ⟨h.grows_pushEnv parent slots, Nat.le_refl _, Nat.le_refl _⟩

theorem extends_define (h : Heap) (env : EnvId) (name : String) (value : Value) :
    h.Extends (h.define env name value) :=
  ⟨h.grows_define env name value, Nat.le_refl _, Nat.le_refl _⟩

theorem extends_pushObject (h : Heap) : h.Extends h.pushObject :=
  ⟨grows_of_environments_eq rfl, by simp [pushObject], Nat.le_refl _⟩

theorem extends_setField (h : Heap) (object : ObjectId) (name : String) (value : Value) :
    h.Extends (h.setField object name value) :=
  ⟨grows_of_environments_eq rfl, by simp [setField], Nat.le_refl _⟩

theorem extends_takeId (h : Heap) : h.Extends h.takeId :=
  ⟨grows_of_environments_eq rfl, Nat.le_refl _, Nat.le_succ _⟩

/-! ## Chains of environments -/

/-- The walk from an environment to its parents passes the given environments
and then arrives at the globals.  Parents are older than their children. -/
inductive Chain (h : Heap) : EnvId → List EnvId → Prop where
  | globals : 0 < h.environments.size → h.parent? .globals = none → Chain h .globals []
  | step {env outer : EnvId} {rest : List EnvId} : h.parent? env = some outer →
      outer.index < env.index → Chain h outer rest → Chain h env (env :: rest)

variable {h h' : Heap} {env : EnvId} {envs : List EnvId}

/-- Chains of environments last as the heap grows. -/
theorem Chain.mono (hg : h.Grows h') (hc : h.Chain env envs) : h'.Chain env envs := by
  induction hc with
  | globals hs hp =>
    exact .globals (Nat.lt_of_lt_of_le hs hg.size) (by rw [hg.parent .globals hs, hp])
  | step hp hlt _ ih => exact .step (by rw [hg.parent _ (lt_size_of_parent? hp), hp]) hlt ih

theorem Chain.lt_size (hc : h.Chain env envs) : env.index < h.environments.size := by
  cases hc with
  | globals hs _ => exact hs
  | step hp _ _ => exact lt_size_of_parent? hp

theorem Chain.mem_lt_size (hc : h.Chain env envs) : ∀ e ∈ envs, e.index < h.environments.size := by
  induction hc with
  | globals _ _ => intro e he; cases he
  | step hp _ _ ih =>
    intro e he
    rcases List.mem_cons.mp he with rfl | he
    · exact lt_size_of_parent? hp
    · exact ih e he

/-- A new environment puts itself in front of the chain of its parent. -/
theorem Chain.pushEnv (hc : h.Chain env envs) (slots : Slots Value) :
    (h.pushEnv (some env) slots).Chain h.nextEnv (h.nextEnv :: envs) :=
  .step (by simp) hc.lt_size (hc.mono (grows_pushEnv ..))

/-- A chain is no longer than its first environment is old. -/
theorem Chain.length_le (hc : h.Chain env envs) : envs.length ≤ env.index := by
  induction hc with
  | globals _ _ => exact Nat.le_refl _
  | step _ hlt _ ih =>
    rw [List.length_cons]
    exact Nat.lt_of_le_of_lt ih hlt

/-- The environments of a chain are local ones. -/
theorem Chain.ne_globals (hc : h.Chain env envs) : ∀ e ∈ envs, e ≠ .globals := by
  induction hc with
  | globals _ _ => intro e he; cases he
  | @step env _ _ _ hlt _ ih =>
    intro e he
    rcases List.mem_cons.mp he with rfl | he
    · rintro rfl
      exact Nat.not_lt_zero _ hlt
    · exact ih e he

/-- All steps of a chain lead to the globals, and no step leads on from there. -/
theorem Chain.ascend_length (hc : h.Chain env envs) :
    h.ascend (some env) envs.length = some (some .globals) ∧ h.parent? .globals = none := by
  induction hc with
  | globals _ hp => exact ⟨rfl, hp⟩
  | step hp _ _ ih =>
    refine ⟨?_, ih.2⟩
    rw [List.length_cons, ascend, hp]
    exact ih.1

/-- A distance within a chain leads to the environment at that place. -/
theorem Chain.ascend_of_getElem? (hc : h.Chain env envs) {d : Nat} {outer : EnvId}
    (hd : envs[d]? = some outer) : h.ascend (some env) d = some (some outer) := by
  induction hc generalizing d with
  | globals _ _ => cases hd
  | step hp _ _ ih =>
    cases d with
    | zero =>
      cases hd
      rfl
    | succ d =>
      rw [ascend, hp]
      exact ih hd

/-- A distance leads along the chain. -/
theorem Chain.ancestorEnv (hc : h.Chain env envs) {d : Nat} {outer : EnvId}
    (hd : envs[d]? = some outer) : h.ancestorEnv env d = .ok outer := by
  simp [Heap.ancestorEnv, hc.ascend_of_getElem? hd]

/-- The number of environments around an environment is the length of its
chain. -/
theorem Chain.depth_eq (hc : h.Chain env envs) {bound : Nat} (hb : envs.length < bound) :
    h.depth bound env = envs.length := by
  induction hc generalizing bound with
  | globals _ hp =>
    cases bound with
    | zero => rfl
    | succ bound => simp [depth, hp]
  | step hp _ _ ih =>
    cases bound with
    | zero => cases hb
    | succ bound => simp only [depth, hp, List.length_cons, ih (Nat.lt_of_succ_lt_succ hb)]

end Heap

end ClassScript
