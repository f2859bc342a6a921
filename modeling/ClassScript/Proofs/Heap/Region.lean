import ClassScript.Proofs.Heap.Reach
import Mathlib.Tactic.ByContra

/-!
# Regions

A *region* of a heap is a set of environments and objects.  It is closed if nothing in it
leads out of it; what is made later belongs to every closed region, and so do the globals
(`Heap.Closed`).

The smallest closed region around some roots holds what they reach and all that is not made
yet (`closed_territory`).  Changing something in a closed region, or making something new
there, keeps it closed and leaves what lies outside of it as it is (`Heap.Spares`).
-/

namespace ClassScript

variable {S : Set Item}

/-! ## Values in a region -/

/-- The methods of the class and of its superclasses were made in the region. -/
inductive Class.Within (S : Set Item) : Class → Prop where
  | mk {id : Nat} {name : String} {superclass : Option Class} {methods : Slots Closure} :
      (∀ x code, methods.get? x = some code → .env code.scope ∈ S) →
      (∀ parent, superclass = some parent → Within S parent) →
      Within S (.mk id name superclass methods)

/-- The environments and objects that the value carries belong to the region. -/
def Value.Within (S : Set Item) : Value → Prop
  | .function _ code => .env code.scope ∈ S
  | .classRef c => c.Within S
  | .object id c => .object id ∈ S ∧ c.Within S
  | _ => True

/-- The item belongs to the region, or all that it carries does. -/
def Item.Within (S : Set Item) : Item → Prop
  | .value a => a.Within S
  | i => i ∈ S

/-- The methods of a class inside, inherited ones too, were declared inside. -/
theorem Class.Within.findMethod? {method : String} {code : Closure} {c : Class}
    (hc : c.Within S) (hf : c.findMethod? method = some code) : .env code.scope ∈ S := by
  induction hc with
  | @mk id name superclass methods hm _ ih =>
    unfold Class.findMethod? at hf
    split at hf
    · rename_i own hown
      cases hf
      exact hm _ _ hown
    · split at hf
      · cases hf
      · exact ih _ rfl hf

namespace Heap

/-- Nothing leads out of the region, and it holds the globals and what is not made yet. -/
structure Closed (S : Set Item) (h : Heap) : Prop where
  globals : .env .globals ∈ S
  parent : ∀ env outer, .env env ∈ S → h.parent? env = some outer → .env outer ∈ S
  slots : ∀ env x a, .env env ∈ S → (h.slots env).get? x = some a → a.Within S
  fields : ∀ id x a, .object id ∈ S → h.field? id x = some a → a.Within S
  newEnv : ∀ env : EnvId, h.environments.size ≤ env.index → .env env ∈ S
  newObject : ∀ id : ObjectId, h.objects.size ≤ id.index → .object id ∈ S

/-- What lies outside of the region is the same in both heaps. -/
structure Spares (S : Set Item) (h h' : Heap) : Prop where
  environments : ∀ env : EnvId, .env env ∉ S →
    h'.environments[env.index]? = h.environments[env.index]?
  objects : ∀ id : ObjectId, .object id ∉ S → h'.objects[id.index]? = h.objects[id.index]?

variable {h h' : Heap}

theorem Spares.refl (h : Heap) : h.Spares S h := ⟨fun _ _ => rfl, fun _ _ => rfl⟩

theorem Spares.trans {h₁ h₂ h₃ : Heap} (h12 : h₁.Spares S h₂) (h23 : h₂.Spares S h₃) :
    h₁.Spares S h₃ :=
  ⟨fun env he => (h23.environments env he).trans (h12.environments env he),
    fun id ho => (h23.objects id ho).trans (h12.objects id ho)⟩

/-! ## What a closed region holds -/

/-- Nothing leads out of a closed region. -/
theorem Closed.leads (hc : h.Closed S) {i j : Item} (hi : i.Within S) (hl : h.Leads i j) :
    j.Within S := by
  cases hl with
  | parent hp => exact hc.parent _ _ hi hp
  | «variable» x hv => exact hc.slots _ _ _ hi hv
  | scope id code => exact hi
  | superclass hs =>
    obtain ⟨-, hparent⟩ := hi
    exact hparent _ hs
  | method hm =>
    obtain ⟨hmethods, -⟩ := hi
    exact hmethods _ _ hm
  | ofClass id definition => exact hi.2
  | fields id definition => exact hi.1
  | field x hf => exact hc.fields _ _ _ hi hf

/-- A closed region holds what is reached from inside of it. -/
theorem Closed.reach (hc : h.Closed S) {roots : Set Item} (hroots : ∀ i ∈ roots, i.Within S)
    {i : Item} (hr : h.Reach roots i) : i.Within S := by
  induction hr with
  | root hi => exact hroots _ hi
  | step _ hl ih => exact hc.leads ih hl

/-- What is reached from an environment of the region belongs to it. -/
theorem Closed.reach_env (hc : h.Closed S) {env : EnvId} (he : .env env ∈ S) {i : Item}
    (hr : h.Reach {.env env} i) : i.Within S :=
  hc.reach (fun i hi => by obtain rfl : i = .env env := hi; exact he) hr

/-! ## The smallest closed region -/

/-- What is reached from the roots, and what is not made yet. -/
def territory (h : Heap) (roots : Set Item) : Set Item := fun i =>
  h.Reach roots i ∨
    match i with
    | .env env => h.environments.size ≤ env.index
    | .object id => h.objects.size ≤ id.index
    | .value _ => False

/-- A class that is reached is inside, with its superclasses. -/
theorem within_of_reach_classRef {roots : Set Item} : ∀ {c : Class},
    h.Reach roots (.value (.classRef c)) → c.Within (h.territory roots)
  | .mk _ _ none _, hr => .mk (fun _ _ hm => .inl (hr.step (.method hm))) nofun
  | .mk _ _ (some _) _, hr =>
    .mk (fun _ _ hm => .inl (hr.step (.method hm))) fun _ hs => by
      cases hs
      exact within_of_reach_classRef (hr.step (.superclass rfl))

/-- What is reached is inside. -/
theorem within_of_reach {roots : Set Item} {i : Item} (hr : h.Reach roots i) :
    i.Within (h.territory roots) := by
  match i with
  | .env _ => exact .inl hr
  | .object _ => exact .inl hr
  | .value (.function id code) => exact .inl (hr.step (.scope id code))
  | .value (.classRef c) => exact within_of_reach_classRef hr
  | .value (.object id c) =>
    exact ⟨.inl (hr.step (.fields id c)), within_of_reach_classRef (hr.step (.ofClass id c))⟩
  | .value .nil | .value (.boolean _) | .value (.number _) | .value (.string _)
  | .value (.native _ _) => trivial

/-- What the roots reach is a closed region. -/
theorem closed_territory {roots : Set Item} (hg : .env .globals ∈ roots) :
    h.Closed (h.territory roots) where
  globals := .inl (.root hg)
  parent env outer he hp := by
    rcases he with hr | hsize
    · exact .inl (hr.step (.parent hp))
    · exact absurd (lt_size_of_parent? hp) (Nat.not_lt.mpr hsize)
  slots env x a he hv := by
    rcases he with hr | hsize
    · exact within_of_reach (hr.step (.variable x hv))
    · have hhas : h.Has env x := by simp [Has, Slots.contains, hv]
      exact absurd (lt_size_of_has hhas) (Nat.not_lt.mpr hsize)
  fields id x a ho hf := by
    rcases ho with hr | hsize
    · exact within_of_reach (hr.step (.field x hf))
    · have hnone : h.objects[id.index]? = none := Array.getElem?_eq_none hsize
      simp [field?, hnone] at hf
  newEnv _ hsize := .inr hsize
  newObject _ hsize := .inr hsize

/-! ## Changes inside of a region -/

section

variable (hc : h.Closed S)
include hc

/-- A region stays closed with an environment that is made inside it. -/
theorem Closed.pushEnv {parent : EnvId} (hp : .env parent ∈ S) {slots : Slots Value}
    (hs : ∀ x a, slots.get? x = some a → a.Within S) :
    (h.pushEnv (some parent) slots).Closed S where
  globals := hc.globals
  parent env outer he hparent := by
    have hlt := lt_size_of_parent? hparent
    rw [size_pushEnv] at hlt
    rcases Nat.lt_succ_iff_lt_or_eq.mp hlt with hlt | heq
    · rw [parent?_pushEnv_of_lt hlt] at hparent
      exact hc.parent env outer he hparent
    · obtain rfl : env = h.nextEnv := by cases env; simp_all [nextEnv]
      rw [parent?_pushEnv_self] at hparent
      cases hparent
      exact hp
  slots env x a he hv := by
    have hhas : (h.pushEnv (some parent) slots).Has env x := by simp [Has, Slots.contains, hv]
    have hlt := lt_size_of_has hhas
    rw [size_pushEnv] at hlt
    rcases Nat.lt_succ_iff_lt_or_eq.mp hlt with hlt | heq
    · rw [slots_pushEnv_of_lt hlt] at hv
      exact hc.slots env x a he hv
    · obtain rfl : env = h.nextEnv := by cases env; simp_all [nextEnv]
      rw [slots_pushEnv_self] at hv
      exact hs x a hv
  fields := hc.fields
  newEnv env hsize := by
    rw [size_pushEnv] at hsize
    exact hc.newEnv env (Nat.le_of_succ_le hsize)
  newObject := hc.newObject

theorem Closed.spares_pushEnv (parent : Option EnvId) (slots : Slots Value) :
    h.Spares S (h.pushEnv parent slots) where
  environments env he := by
    have hlt : env.index < h.environments.size := by
      by_contra hge
      exact he (hc.newEnv env (Nat.le_of_not_lt hge))
    simp [Heap.pushEnv, Array.getElem?_push_lt, hlt]
  objects _ _ := rfl

/-- A region stays closed when a value from inside is stored. -/
theorem Closed.define {env : EnvId} (name : String) {value : Value} (hv : value.Within S) :
    (h.define env name value).Closed S where
  globals := hc.globals
  parent other outer he hp := hc.parent other outer he (by rwa [parent?_define] at hp)
  slots other x a he ha := by
    by_cases hlt : env.index < h.environments.size
    · by_cases heq : env = other
      · subst heq
        rw [slots_define_self hlt] at ha
        by_cases hx : name = x
        · subst hx
          rw [Slots.get?_set_self] at ha
          cases ha
          exact hv
        · rw [Slots.get?_set_of_ne _ _ hx] at ha
          exact hc.slots env x a he ha
      · rw [slots_define_of_ne heq] at ha
        exact hc.slots other x a he ha
    · rw [define_of_size_le (Nat.le_of_not_lt hlt)] at ha
      exact hc.slots other x a he ha
  fields := hc.fields
  newEnv other hsize := hc.newEnv other (by rwa [size_define] at hsize)
  newObject := hc.newObject

omit hc in
/-- Setting a variable inside spares what is outside. -/
theorem spares_define {env : EnvId} (he : .env env ∈ S) (name : String) (value : Value) :
    h.Spares S (h.define env name value) where
  environments other ho := by
    have hne : env.index ≠ other.index := by
      intro hi
      obtain rfl : env = other := by cases env; cases other; simp_all
      exact ho he
    simp [Heap.define, Array.getElem?_modify, hne]
  objects _ _ := rfl

theorem Closed.pushObject : h.pushObject.Closed S where
  globals := hc.globals
  parent := hc.parent
  slots := hc.slots
  fields id x a ho hf := by
    by_cases hlt : id.index < h.objects.size
    · refine hc.fields id x a ho ?_
      simpa [field?, Heap.pushObject, Array.getElem?_push_lt, hlt] using hf
    · simp only [field?, Heap.pushObject, Array.getElem?_push] at hf
      split at hf
      · cases hf
      · rename_i fields hfields
        split at hfields
        · cases hfields
          cases hf
        · simp [hlt] at hfields
  newEnv := hc.newEnv
  newObject id hsize := hc.newObject id (by simp [Heap.pushObject] at hsize; omega)

theorem Closed.spares_pushObject : h.Spares S h.pushObject where
  environments _ _ := rfl
  objects id ho := by
    have hlt : id.index < h.objects.size := by
      by_contra hge
      exact ho (hc.newObject id (Nat.le_of_not_lt hge))
    simp [Heap.pushObject, Array.getElem?_push_lt, hlt]

/-- A region stays closed when a field is set to a value from inside. -/
theorem Closed.setField {id : ObjectId} (name : String) {value : Value} (hv : value.Within S) :
    (h.setField id name value).Closed S where
  globals := hc.globals
  parent := hc.parent
  slots := hc.slots
  fields other x a ho hf := by
    by_cases hlt : id.index < h.objects.size
    · by_cases heq : id = other
      · subst heq
        rw [field?_setField_self hlt] at hf
        split at hf
        · cases hf
          exact hv
        · exact hc.fields id x a ho hf
      · rw [field?_setField_other heq] at hf
        exact hc.fields other x a ho hf
    · rw [setField_of_size_le (Nat.le_of_not_lt hlt)] at hf
      exact hc.fields other x a ho hf
  newEnv := hc.newEnv
  newObject other hsize := hc.newObject other (by simpa [Heap.setField] using hsize)

omit hc in
/-- Setting a field inside spares what is outside. -/
theorem spares_setField {id : ObjectId} (ho : .object id ∈ S) (name : String) (value : Value) :
    h.Spares S (h.setField id name value) where
  environments _ _ := rfl
  objects other hother := by
    have hne : id.index ≠ other.index := by
      intro hi
      obtain rfl : id = other := by cases id; cases other; simp_all
      exact hother ho
    simp [Heap.setField, Array.getElem?_modify, hne]

end

end Heap

end ClassScript
