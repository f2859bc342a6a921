import ClassScript.Proofs.Heap.Growth
import Mathlib.Data.Set.Defs

/-!
# Reachability

From an environment one gets to its parent and to its values, from a function to the
environment in which it was made, from a class to its superclass and to the environments of
its methods, and from an object to its class and to its fields.  `Heap.Reach h roots` holds
of whatever is found on the way from the roots.

What is read in a heap is reachable (`Reach.find?`, `Reach.ascend`), and what is reachable
stays so when it is stored (`Reach.define`, `Reach.setField`).

A *region* is a set of environments and objects.  A region that is closed, and that holds
the roots, holds all that they reach (`Closed.reach`).
-/

namespace ClassScript

/-- What can be reached. -/
inductive Item where
  /-- An environment. -/
  | env (env : EnvId)
  /-- The fields of an object. -/
  | object (object : ObjectId)
  /-- A value. -/
  | value (value : Value)

namespace Heap

/-- The ways from one item to the next. -/
inductive Leads (h : Heap) : Item → Item → Prop where
  | parent {env outer : EnvId} : h.parent? env = some outer → Leads h (.env env) (.env outer)
  | «variable» {env : EnvId} (name : String) {a : Value} :
      (h.slots env).get? name = some a → Leads h (.env env) (.value a)
  | scope (id : Nat) (code : Closure) : Leads h (.value (.function id code)) (.env code.scope)
  | superclass {definition parent : Class} : definition.superclass = some parent →
      Leads h (.value (.classRef definition)) (.value (.classRef parent))
  | method {definition : Class} {name : String} {code : Closure} :
      definition.methods.get? name = some code →
      Leads h (.value (.classRef definition)) (.env code.scope)
  | ofClass (id : ObjectId) (definition : Class) :
      Leads h (.value (.object id definition)) (.value (.classRef definition))
  | fields (id : ObjectId) (definition : Class) :
      Leads h (.value (.object id definition)) (.object id)
  | field {id : ObjectId} (name : String) {a : Value} :
      h.field? id name = some a → Leads h (.object id) (.value a)

/-- What can be reached from the roots. -/
inductive Reach (h : Heap) (roots : Set Item) : Item → Prop where
  | root {i : Item} : i ∈ roots → Reach h roots i
  | step {i j : Item} : Reach h roots i → h.Leads i j → Reach h roots j

variable {h h' : Heap} {roots : Set Item} {i : Item} {a : Value}

theorem Reach.self (h : Heap) (i : Item) : h.Reach {i} i := .root rfl

theorem Reach.mono {roots' : Set Item} (hroots : ∀ i ∈ roots, i ∈ roots') (hr : h.Reach roots i) :
    h.Reach roots' i := by
  induction hr with
  | root hi => exact .root (hroots _ hi)
  | step _ hl ih => exact .step ih hl

end Heap

/-! ## Plain values -/

/-- The values that lead nowhere and can be made anywhere. -/
def Value.Plain : Value → Prop
  | .nil | .boolean _ | .number _ | .string _ => True
  | _ => False

theorem Value.plain_ofLiteral (l : Literal) : (Value.ofLiteral l).Plain := by
  cases l <;> trivial

theorem UnaryOp.plain_of_apply {op : UnaryOp} {a b : Value} (hr : op.apply a = .ok b) :
    b.Plain := by
  cases op with
  | not =>
    cases hr
    trivial
  | negate =>
    cases a <;> cases hr
    trivial

theorem Value.plain_of_onNumbers {f : Float → Float → Except RuntimeError Value} {a b c : Value}
    (hf : ∀ x y c, f x y = .ok c → c.Plain) (hc : Value.onNumbers f a b = .ok c) : c.Plain := by
  unfold Value.onNumbers at hc
  split at hc
  · exact hf _ _ _ hc
  · cases hc

theorem BinaryOp.plain_of_apply {op : BinaryOp} {a b c : Value} (hr : op.apply a b = .ok c) :
    c.Plain := by
  cases op with
  | add =>
    simp only [BinaryOp.apply, Value.add] at hr
    split at hr
    · cases hr
      trivial
    · split at hr <;> cases hr
      trivial
  | equal | notEqual =>
    cases hr
    trivial
  | divide =>
    refine Value.plain_of_onNumbers (fun x y c hc => ?_) hr
    unfold quotient at hc
    split at hc <;> cases hc
    trivial
  | _ =>
    refine Value.plain_of_onNumbers (fun x y c hc => ?_) hr
    cases hc
    trivial

namespace Heap

variable {h h' : Heap} {roots : Set Item} {i : Item} {a : Value}

/-! ## What is read -/

namespace Reach

variable {env outer : EnvId} {name : String}

theorem find? {bound : Nat} (hr : h.Reach roots (.env env))
    (hf : h.find? name bound env = some a) : h.Reach roots (.value a) := by
  induction bound generalizing env with
  | zero => cases hf
  | succ bound ih =>
    unfold Heap.find? at hf
    split at hf
    · cases hf
    · rename_i e he
      split at hf
      · rename_i b hb
        cases hf
        exact hr.step (.variable name (by simp only [Heap.slots, he, hb]))
      · split at hf
        · cases hf
        · rename_i next hnext
          exact ih (hr.step (.parent (by simp only [Heap.parent?, he, hnext]))) hf

theorem holder? {bound : Nat} (hr : h.Reach roots (.env env))
    (hf : h.holder? name bound env = some outer) : h.Reach roots (.env outer) := by
  induction bound generalizing env with
  | zero => cases hf
  | succ bound ih =>
    unfold Heap.holder? at hf
    split at hf
    · cases hf
    · rename_i e he
      split at hf
      · cases hf
        exact hr
      · split at hf
        · cases hf
        · rename_i next hnext
          exact ih (hr.step (.parent (by simp only [Heap.parent?, he, hnext]))) hf

theorem ascend {steps : Nat} (hr : h.Reach roots (.env env))
    (hf : h.ascend (some env) steps = some (some outer)) : h.Reach roots (.env outer) := by
  induction steps generalizing env with
  | zero =>
    cases hf
    exact hr
  | succ steps ih =>
    unfold Heap.ascend at hf
    cases hp : h.parent? env with
    | none =>
      rw [hp] at hf
      cases steps <;> cases hf
    | some next =>
      rw [hp] at hf
      exact ih (hr.step (.parent hp)) hf

theorem ancestorEnv {distance : Int} (hr : h.Reach roots (.env env))
    (hf : h.ancestorEnv env distance = .ok outer) : h.Reach roots (.env outer) := by
  unfold Heap.ancestorEnv at hf
  split at hf
  · rename_i found hascend
    cases hf
    exact hr.ascend hascend
  · cases hf

theorem getAt {distance : Int} (hr : h.Reach roots (.env env))
    (hf : h.getAt env distance name = .ok a) : h.Reach roots (.value a) := by
  unfold Heap.getAt at hf
  split at hf
  · cases hf
  · rename_i found hancestor
    split at hf
    · cases hf
    · rename_i b hb
      cases hf
      exact (hr.ancestorEnv hancestor).step (.variable name hb)

end Reach

/-! ## What is stored -/

/-- If the ways from all items but one are kept, what was reachable still is, or else that one
is. -/
theorem Reach.of_keeps {p : Item} (hkeeps : ∀ {i j : Item}, i ≠ p → h.Leads i j → h'.Leads i j)
    (hr : h.Reach roots i) : h'.Reach roots i ∨ h'.Reach roots p := by
  induction hr with
  | root hi => exact .inl (.root hi)
  | @step i j _ hl ih =>
    rcases ih with ih | ih
    · by_cases hp : i = p
      · exact .inr (hp ▸ ih)
      · exact .inl (ih.step (hkeeps hp hl))
    · exact .inr ih

theorem Leads.define {i j : Item} (hl : h.Leads i j) {env : EnvId} (hne : i ≠ .env env)
    (name : String) (value : Value) : (h.define env name value).Leads i j := by
  cases hl with
  | parent hp => exact .parent (by rw [parent?_define, hp])
  | @«variable» other x b hv =>
    have hother : env ≠ other := fun he => hne (by rw [he])
    exact .variable x (by rw [slots_define_of_ne hother, hv])
  | scope id code => exact .scope id code
  | superclass hs => exact .superclass hs
  | method hm => exact .method hm
  | ofClass id definition => exact .ofClass id definition
  | fields id definition => exact .fields id definition
  | field x hf => exact .field x hf

theorem field?_setField_other {id other : ObjectId} (hne : id ≠ other) (name x : String)
    (value : Value) : (h.setField id name value).field? other x = h.field? other x := by
  simp [field?_setField_eq, hne]

theorem Leads.setField {i j : Item} (hl : h.Leads i j) {id : ObjectId} (hne : i ≠ .object id)
    (name : String) (value : Value) : (h.setField id name value).Leads i j := by
  cases hl with
  | parent hp => exact .parent hp
  | «variable» x hv => exact .variable x hv
  | scope id code => exact .scope id code
  | superclass hs => exact .superclass hs
  | method hm => exact .method hm
  | ofClass id definition => exact .ofClass id definition
  | fields id definition => exact .fields id definition
  | @field other x b hf =>
    have hother : id ≠ other := fun he => hne (by rw [he])
    exact .field x (by rw [field?_setField_other hother, hf])

/-- No variable is set outside of the environments that there are. -/
theorem define_of_size_le {env : EnvId} (hle : h.environments.size ≤ env.index) (name : String)
    (value : Value) : h.define env name value = h := by
  unfold Heap.define
  congr 1
  apply Array.ext_getElem?
  intro k
  rw [Array.getElem?_modify]
  split
  · rename_i hk
    simp [← hk, hle]
  · rfl

/-- No field is set outside of the objects that there are. -/
theorem setField_of_size_le {id : ObjectId} (hle : h.objects.size ≤ id.index) (name : String)
    (value : Value) : h.setField id name value = h := by
  unfold Heap.setField
  congr 1
  apply Array.ext_getElem?
  intro k
  rw [Array.getElem?_modify]
  split
  · rename_i hk
    simp [← hk, hle]
  · rfl

theorem field?_setField_self {id : ObjectId} (hlt : id.index < h.objects.size) (name x : String)
    (value : Value) :
    (h.setField id name value).field? id x = if name = x then some value else h.field? id x := by
  simp [field?_setField_eq, hlt]

/-- A value stays reachable when it is given to a variable. -/
theorem Reach.define (hr : h.Reach roots (.value a)) (env : EnvId) (name : String) :
    (h.define env name a).Reach roots (.value a) := by
  by_cases hlt : env.index < h.environments.size
  · rcases hr.of_keeps fun hne hl => hl.define hne name a with hr | hr
    · exact hr
    · exact hr.step (.variable name (by rw [slots_define_self hlt, Slots.get?_set_self]))
  · rw [define_of_size_le (Nat.le_of_not_lt hlt)]
    exact hr

/-- A value stays reachable when it is given to a field. -/
theorem Reach.setField (hr : h.Reach roots (.value a)) (id : ObjectId) (name : String) :
    (h.setField id name a).Reach roots (.value a) := by
  by_cases hlt : id.index < h.objects.size
  · rcases hr.of_keeps fun hne hl => hl.setField hne name a with hr | hr
    · exact hr
    · exact hr.step (.field name (by rw [field?_setField_self hlt, if_pos rfl]))
  · rw [setField_of_size_le (Nat.le_of_not_lt hlt)]
    exact hr

end Heap

end ClassScript
