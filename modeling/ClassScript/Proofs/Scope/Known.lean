import ClassScript.Proofs.Scope.Lockstep
import Mathlib.Logic.Function.Basic

/-!
# Values whose origin is known

Functions outlive the scopes that they are made in: they are stored in variables
and fields, handed on as arguments and kept from one program to the next.  A
value is *known* if every function that it carries was made at a site, in the
environments of a display, and every class that it carries by a declaration, after
its superclass.  A heap is known if all values in it are.

The names that a scope declares in all are fixed by its site.  A *naming* gives
them for the environments.  It grows along with the heap: `Later` says that a
heap and its naming come after another heap and its naming, and what is known
stays known (`Value.Known.later`).
-/

namespace ClassScript

open Resolution Run

/-- The names that the scope of each environment declares in all. -/
abbrev Naming := EnvId → List String

/-- The naming after an environment is made. -/
def Naming.push (ν : Naming) (h : Heap) (declared : List String) : Naming :=
  Function.update ν h.nextEnv declared

theorem Naming.push_nextEnv (ν : Naming) (h : Heap) (declared : List String) :
    ν.push h declared h.nextEnv = declared :=
  Function.update_self ..

theorem Naming.push_of_lt (ν : Naming) {h : Heap} {env : EnvId}
    (hlt : env.index < h.environments.size) (declared : List String) :
    ν.push h declared env = ν env := by
  refine Function.update_of_ne ?_ ..
  rintro rfl
  exact Nat.lt_irrefl _ hlt

/-- The naming after the scope around the methods of a class is made. -/
def Naming.openClass (ν : Naming) (h : Heap) : Option Class → Naming
  | none => ν
  | some _ => ν.push h ["super"]

section

variable (settings : Settings) (roots : List Root) (ν : Naming) (h : Heap)

/-- The function was made at a site. -/
def Closure.Known (code : Closure) : Prop :=
  ∃ h₀ f ρ, Made settings roots h₀ code f ρ ∧ h₀.Grows h ∧ ρ.map ν = f.names

/-- The method was made at a site and has no object yet. -/
def Closure.KnownMethod (code : Closure) : Prop :=
  ∃ h₀ f ρ, Method settings roots h₀ code f ρ ∧ h₀.Grows h ∧ f.names = ["this"] :: ρ.map ν

/-- The class was made by a declaration, and its superclass was made before. -/
structure Class.Declared (c : Class) : Prop where
  visit : ∃ v env methods, Reached settings roots v ∧ v.Declares settings env methods c
  superclass : ∀ parent, c.superclass = some parent → parent.id < c.id
  past : c.id < h.nextId

/-- The class and its superclasses were made by declarations, and their methods at
sites. -/
inductive Class.Known : Class → Prop where
  | mk {id : Nat} {name : String} {superclass : Option Class} {methods : Slots Closure} :
      Class.Declared settings roots h (.mk id name superclass methods) →
      (∀ x code, methods.get? x = some code → code.KnownMethod settings roots ν h) →
      (∀ parent, superclass = some parent → Known parent) →
      Known (.mk id name superclass methods)

/-- All functions that the value carries were made at sites, and an object is one of the
heap. -/
def Value.Known : Value → Prop
  | .function _ code => code.Known settings roots ν h
  | .classRef c => c.Known settings roots ν h
  | .object id c => id.index < h.objects.size ∧ c.Known settings roots ν h
  | _ => True

/-- All values of a heap are known, the scopes of `super` hold classes, and no
local environment has a name that its scope does not declare. -/
structure Heap.Known : Prop where
  outermost : h.Chain .globals []
  values : ∀ env x a, (h.slots env).get? x = some a → a.Known settings roots ν h
  fields : ∀ object x a, h.field? object x = some a → a.Known settings roots ν h
  supers : ∀ env a, (h.slots env).get? "super" = some a → ∃ c, a = .classRef c
  named : ∀ env x, env ≠ .globals → h.Has env x → x ∈ ν env

/-- The second heap comes after the first one and is known. -/
structure Later (ν' : Naming) (h' : Heap) : Prop extends h.Extends h' where
  keeps : ∀ env : EnvId, env.index < h.environments.size → ν' env = ν env
  known : h'.Known settings roots ν'

end

variable {settings : Settings} {roots : List Root} {ν ν' : Naming} {h h' : Heap}

theorem Later.refl (hk : h.Known settings roots ν) : Later settings roots ν h ν h :=
  ⟨.refl h, fun _ _ => rfl, hk⟩

theorem Later.trans {ν₁ ν₂ ν₃ : Naming} {h₁ h₂ h₃ : Heap} (h12 : Later settings roots ν₁ h₁ ν₂ h₂)
    (h23 : Later settings roots ν₂ h₂ ν₃ h₃) : Later settings roots ν₁ h₁ ν₃ h₃ where
  toExtends := h12.toExtends.trans h23.toExtends
  keeps env hlt := by
    rw [h23.keeps env (Nat.lt_of_lt_of_le hlt h12.grows.size), h12.keeps env hlt]
  known := h23.known

/-- The names of the scopes of a display do not change. -/
theorem map_naming_eq (hkeeps : ∀ env : EnvId, env.index < h.environments.size → ν' env = ν env)
    {ρ : Display} (hlt : ∀ env ∈ ρ, env.index < h.environments.size) : ρ.map ν' = ρ.map ν :=
  List.map_congr_left fun env hm => hkeeps env (hlt env hm)

theorem Later.map_eq (hl : Later settings roots ν h ν' h') {env : EnvId} {ρ : Display}
    (hc : h.Chain env ρ) : ρ.map ν' = ρ.map ν :=
  map_naming_eq hl.keeps hc.mem_lt_size

/-! ## What is known stays known -/

section

variable (hroots : ∀ r ∈ roots, r.Accepted) (hg : h.Grows h')
  (hkeeps : ∀ env : EnvId, env.index < h.environments.size → ν' env = ν env)
include hroots hg hkeeps

theorem Closure.Known.mono {code : Closure} (hc : code.Known settings roots ν h) :
    code.Known settings roots ν' h' := by
  obtain ⟨h₀, f, ρ, hm, hg₀, hn⟩ := hc
  refine ⟨h₀, f, ρ, hm, hg₀.trans hg, ?_⟩
  rw [map_naming_eq hkeeps ((Made.fits hroots hm).chain.mono hg₀).mem_lt_size, hn]

theorem Closure.KnownMethod.mono {code : Closure} (hc : code.KnownMethod settings roots ν h) :
    code.KnownMethod settings roots ν' h' := by
  obtain ⟨h₀, f, ρ, hm, hg₀, hn⟩ := hc
  refine ⟨h₀, f, ρ, hm, hg₀.trans hg, ?_⟩
  rw [map_naming_eq hkeeps ((Method.fits hroots hm).chain.mono hg₀).mem_lt_size, hn]

end

section

variable (hroots : ∀ r ∈ roots, r.Accepted) (he : h.Extends h')
  (hkeeps : ∀ env : EnvId, env.index < h.environments.size → ν' env = ν env)
include hroots he hkeeps

theorem Class.Known.mono {c : Class} (hc : c.Known settings roots ν h) :
    c.Known settings roots ν' h' := by
  induction hc with
  | mk hd hm _ ih =>
    refine .mk ⟨hd.visit, hd.superclass, Nat.lt_of_lt_of_le hd.past he.nextId⟩
      (fun x code hx => ?_) ih
    exact (hm x code hx).mono hroots he.grows hkeeps

theorem Value.Known.mono {a : Value} (ha : a.Known settings roots ν h) :
    a.Known settings roots ν' h' := by
  cases a with
  | function id code => exact Closure.Known.mono hroots he.grows hkeeps ha
  | classRef c => exact Class.Known.mono hroots he hkeeps ha
  | object id c =>
    exact ⟨Nat.lt_of_lt_of_le ha.1 he.objects, Class.Known.mono hroots he hkeeps ha.2⟩
  | _ => trivial

end

theorem Value.Known.later (hroots : ∀ r ∈ roots, r.Accepted)
    (hl : Later settings roots ν h ν' h') {a : Value} (ha : a.Known settings roots ν h) :
    a.Known settings roots ν' h' :=
  ha.mono hroots hl.toExtends hl.keeps

/-- A known class was made by a declaration. -/
theorem Class.Known.declared {c : Class} (hc : c.Known settings roots ν h) :
    c.Declared settings roots h := by
  cases hc with
  | mk hd _ _ => exact hd

/-- The superclass of a known class is known. -/
theorem Class.Known.superclass {c parent : Class} (hc : c.Known settings roots ν h)
    (hp : c.superclass = some parent) : parent.Known settings roots ν h := by
  cases hc with
  | mk _ _ hs => exact hs parent hp

/-- The method that a class finds is known. -/
theorem Class.Known.findMethod {c : Class} (hc : c.Known settings roots ν h) {method : String}
    {code : Closure} (hf : c.findMethod? method = some code) :
    code.KnownMethod settings roots ν h := by
  induction hc with
  | @mk id name superclass methods _ hm _ ih =>
    rw [Class.findMethod?.eq_def] at hf
    dsimp only at hf
    split at hf
    · rename_i own hown
      cases hf
      exact hm method _ hown
    · split at hf
      · cases hf
      · exact ih _ rfl hf

theorem Value.known_ofLiteral (l : Literal) :
    (Value.ofLiteral l).Known settings roots ν h := by
  cases l <;> trivial

/-! ## Steps of a known heap -/

theorem Heap.get?_define {env other : EnvId} {x y : String} {a b : Value}
    (hlt : env.index < h.environments.size)
    (hy : ((h.define env x a).slots other).get? y = some b) :
    (other = env ∧ y = x ∧ b = a) ∨ (h.slots other).get? y = some b := by
  by_cases he : env = other
  · subst he
    rw [Heap.slots_define_self hlt] at hy
    by_cases hx : x = y
    · subst hx
      rw [Slots.get?_set_self] at hy
      exact .inl ⟨rfl, rfl, (Option.some.inj hy).symm⟩
    · rw [Slots.get?_set_of_ne _ _ hx] at hy
      exact .inr hy
  · rw [Heap.slots_define_of_ne he] at hy
    exact .inr hy

namespace Heap.Known

variable (hroots : ∀ r ∈ roots, r.Accepted) (hk : h.Known settings roots ν)
include hroots hk

/-- A heap with the same environments and no unknown fields. -/
theorem of_environments_eq (he : h'.environments = h.environments) (hextends : h.Extends h')
    (hf : ∀ object x a, h'.field? object x = some a →
      a.Known settings roots ν h ∨ h.field? object x = some a) :
    Later settings roots ν h ν h' := by
  have hslots : ∀ env, h'.slots env = h.slots env := fun env => by simp only [Heap.slots, he]
  refine ⟨hextends, fun _ _ => rfl, hk.outermost.mono hextends.grows, fun env x a hx => ?_,
    fun object x a hx => ?_, fun env a hx => ?_, fun env x hne hx => ?_⟩
  · rw [hslots] at hx
    exact (hk.values env x a hx).mono hroots hextends fun _ _ => rfl
  · rcases hf object x a hx with ha | hx
    · exact ha.mono hroots hextends fun _ _ => rfl
    · exact (hk.fields object x a hx).mono hroots hextends fun _ _ => rfl
  · rw [hslots] at hx
    exact hk.supers env a hx
  · rw [Heap.Has, hslots] at hx
    exact hk.named env x hne hx

theorem takeId : Later settings roots ν h ν h.takeId :=
  hk.of_environments_eq hroots rfl h.extends_takeId fun _ _ _ hx => .inr hx

theorem pushObject : Later settings roots ν h ν h.pushObject :=
  hk.of_environments_eq hroots rfl h.extends_pushObject fun _ _ _ hx =>
    .inr (Heap.field?_pushObject_eq .. ▸ hx)

theorem setField {object : ObjectId} {x : String} {a : Value} (ha : a.Known settings roots ν h) :
    Later settings roots ν h ν (h.setField object x a) := by
  refine hk.of_environments_eq hroots rfl (h.extends_setField ..) fun other y b hy => ?_
  rw [Heap.field?_setField_eq] at hy
  split at hy
  · cases hy
    exact .inl ha
  · exact .inr hy

/-- Setting a variable.  The value may come to be known by the step itself. -/
theorem define {env : EnvId} {x : String} {a : Value} (hlt : env.index < h.environments.size)
    (ha : a.Known settings roots ν (h.define env x a)) (hs : x ≠ "super")
    (hx : env ≠ .globals → x ∈ ν env) : Later settings roots ν h ν (h.define env x a) := by
  have he := h.extends_define env x a
  refine ⟨he, fun _ _ => rfl, hk.outermost.mono he.grows, fun other y b hy => ?_,
    fun object y b hy => ?_, fun other b hy => ?_, fun other y hne hy => ?_⟩
  · rcases Heap.get?_define hlt hy with ⟨-, -, rfl⟩ | hy
    · exact ha
    · exact (hk.values other y b hy).mono hroots he fun _ _ => rfl
  · exact (hk.fields object y b hy).mono hroots he fun _ _ => rfl
  · rcases Heap.get?_define hlt hy with ⟨-, rfl, -⟩ | hy
    · exact absurd rfl hs
    · exact hk.supers other b hy
  · rcases (Heap.has_define_iff hlt).mp hy with hy | ⟨rfl, rfl⟩
    · exact hk.named other y hne hy
    · exact hx hne

theorem pushEnv {parent : EnvId} {slots : Slots Value} {declared : List String}
    (hv : ∀ x a, slots.get? x = some a → a.Known settings roots ν h)
    (hs : ∀ a, slots.get? "super" = some a → ∃ c, a = .classRef c)
    (hd : ∀ x, slots.contains x = true → x ∈ declared) :
    Later settings roots ν h (ν.push h declared) (h.pushEnv (some parent) slots) := by
  have hextends := h.extends_pushEnv (some parent) slots
  have hkeeps : ∀ env : EnvId, env.index < h.environments.size → ν.push h declared env = ν env :=
    fun env hlt => ν.push_of_lt hlt declared
  -- An environment of the new heap is the new one, or an old one with its old slots.
  have hslots : ∀ env : EnvId, env = h.nextEnv ∨
      (h.pushEnv (some parent) slots).slots env = h.slots env := by
    intro env
    rcases Nat.lt_trichotomy env.index h.environments.size with hlt | he | hgt
    · exact .inr (Heap.slots_pushEnv_of_lt hlt ..)
    · exact .inl (by cases env; exact congrArg EnvId.mk he)
    · refine .inr ?_
      have h₁ : ¬ env.index < h.environments.size + 1 := by omega
      have h₂ : ¬ env.index < h.environments.size := by omega
      simp [Heap.slots, Heap.pushEnv, h₁, h₂]
  refine ⟨hextends, hkeeps, hk.outermost.mono hextends.grows, fun env x a hx => ?_,
    fun object x a hx => (hk.fields object x a hx).mono hroots hextends hkeeps,
    fun env a hx => ?_, fun env x hne' hx => ?_⟩
  · rcases hslots env with rfl | he
    · rw [Heap.slots_pushEnv_self] at hx
      exact (hv x a hx).mono hroots hextends hkeeps
    · rw [he] at hx
      exact (hk.values env x a hx).mono hroots hextends hkeeps
  · rcases hslots env with rfl | he
    · rw [Heap.slots_pushEnv_self] at hx
      exact hs a hx
    · rw [he] at hx
      exact hk.supers env a hx
  · rcases hslots env with rfl | he
    · rw [Heap.Has, Heap.slots_pushEnv_self] at hx
      rw [Naming.push_nextEnv]
      exact hd x hx
    · rw [Heap.Has, he] at hx
      rw [hkeeps env (Heap.lt_size_of_has hx)]
      exact hk.named env x hne' hx

end Heap.Known

end ClassScript
