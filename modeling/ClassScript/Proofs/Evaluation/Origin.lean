import ClassScript.Proofs.Evaluation.Frame

/-!
# Where results come from

The value that an evaluation completes with is plain, or it was made by the evaluation, or
it can be reached in the new heap: from the environment of the evaluation, from the globals,
or from an environment or an object that the evaluation made (`Heap.Yields`).

Arguments need not be among these roots.  A call puts them into a new environment, and there
they can be reached until they are replaced.
-/

namespace ClassScript

open Run

/-! ## What is made between two heaps -/

namespace Heap

/-- The environments and the objects that are made between two heaps. -/
def made (h h' : Heap) : Set Item
  | .env env => h.environments.size ≤ env.index ∧ env.index < h'.environments.size
  | .object id => h.objects.size ≤ id.index ∧ id.index < h'.objects.size
  | .value _ => False

/-- The value is a function, a class or an object that is made between two heaps. -/
def Makes (h h' : Heap) : Value → Prop
  | .function id _ => h.nextId ≤ id ∧ id < h'.nextId
  | .classRef c => h.nextId ≤ c.id ∧ c.id < h'.nextId
  | .object id _ => .object id ∈ h.made h'
  | _ => False

/-- The value is plain or made between the heaps, or it can be reached in the second one from
the roots and from what is made. -/
def Yields (roots : Set Item) (h h' : Heap) (a : Value) : Prop :=
  a.Plain ∨ h.Makes h' a ∨ h'.Reach (roots ∪ h.made h') (.value a)

variable {h h' h₁ h₂ : Heap} {roots : Set Item} {a : Value}

/-- What is made later is made after the earlier heap, too. -/
theorem Extends.made_subset (he : h.Extends h₁) : ∀ i ∈ h₁.made h₂, i ∈ h.made h₂
  | .env _, hi => ⟨Nat.le_trans he.grows.size hi.1, hi.2⟩
  | .object _, hi => ⟨Nat.le_trans he.objects hi.1, hi.2⟩

theorem Makes.of_extends (he : h.Extends h₁) (hm : h₁.Makes h₂ a) : h.Makes h₂ a := by
  cases a with
  | function id code => exact ⟨Nat.le_trans he.nextId hm.1, hm.2⟩
  | classRef c => exact ⟨Nat.le_trans he.nextId hm.1, hm.2⟩
  | object id c => exact he.made_subset _ hm
  | _ => exact hm

/-- A result of a later piece of an evaluation is one of the evaluation. -/
theorem Yields.of_extends {roots' : Set Item} (he : h.Extends h₁)
    (hroots : ∀ i ∈ roots', i ∈ roots ∪ h.made h₂) (hy : h₁.Yields roots' h₂ a) :
    h.Yields roots h₂ a := by
  rcases hy with hp | hm | hr
  · exact .inl hp
  · exact .inr (.inl (hm.of_extends he))
  · refine .inr (.inr (hr.mono fun i hi => ?_))
    rcases hi with hi | hi
    · exact hroots i hi
    · exact .inr (he.made_subset i hi)

theorem Yields.after (he : h.Extends h₁) (hy : h₁.Yields roots h₂ a) : h.Yields roots h₂ a :=
  hy.of_extends he fun _ hi => .inl hi

/-- A result that stays reachable is one of the evaluation when it goes on. -/
theorem Yields.stays (he : h₁.Extends h₂)
    (hreach : ∀ roots, h₁.Reach roots (.value a) → h₂.Reach roots (.value a))
    (hy : h.Yields roots h₁ a) : h.Yields roots h₂ a := by
  have hmade : ∀ i ∈ h.made h₁, i ∈ h.made h₂
    | .env _, hi => ⟨hi.1, Nat.lt_of_lt_of_le hi.2 he.grows.size⟩
    | .object _, hi => ⟨hi.1, Nat.lt_of_lt_of_le hi.2 he.objects⟩
  rcases hy with hp | hm | hr
  · exact .inl hp
  · refine .inr (.inl ?_)
    cases a with
    | function id code => exact ⟨hm.1, Nat.lt_of_lt_of_le hm.2 he.nextId⟩
    | classRef c => exact ⟨hm.1, Nat.lt_of_lt_of_le hm.2 he.nextId⟩
    | object id c => exact hmade _ hm
    | _ => exact hm
  · exact .inr (.inr ((hreach _ hr).mono fun i hi => hi.imp_right (hmade i)))

theorem Yields.of_reach {i : Item} (hi : i ∈ roots) (hr : h'.Reach {i} (.value a)) :
    h.Yields roots h' a :=
  .inr (.inr (hr.mono fun j hj => by obtain rfl : j = i := hj; exact .inl hi))

end Heap

namespace Run

/-! ## Steps -/

/-- A step that completes does so with a value that its environment and the globals yield. -/
def Finds (env : EnvId) (x : Run Value) : Prop :=
  ∀ m a m', x m = .ok a m' → m.heap.Yields {.env env, .env .globals} m'.heap a

namespace Finds

variable {env : EnvId}

theorem of_eq {x : Run Value} {m m' : Machine} {a : Value} (hx : x.Respects HeapExtends)
    (hr : x m = .ok a m') : m.heap.Extends m'.heap := by
  have he := hx m
  rw [hr] at he
  exact he

theorem orFail (line : Nat) {r : Except RuntimeError Value} (hr : ∀ a, r = .ok a → a.Plain) :
    Finds env (orFail line r) := by
  intro m a m' h
  cases r with
  | ok b =>
    cases h
    exact .inl (hr a rfl)
  | error e => cases h

theorem readByName {from' : EnvId} (hfrom : .env from' ∈ ({.env env, .env .globals} : Set Item))
    (name : Name) : Finds env (readByName from' name) := by
  intro m a m' hr
  unfold Run.readByName at hr
  split at hr
  · rename_i value hvalue
    cases hr
    exact .of_reach hfrom ((Heap.Reach.self ..).find? hvalue)
  · cases hr

theorem readAt (distance : Int) (name : String) : Finds env (readAt env distance name) := by
  intro m a m' hr
  unfold Run.readAt at hr
  split at hr
  · rename_i value hvalue
    cases hr
    exact .of_reach (.inl rfl) ((Heap.Reach.self ..).getAt hvalue)
  · cases hr

theorem read (settings : Settings) (name : Name) (binding : Binding) :
    Finds env (read settings env name binding) := by
  unfold Run.read
  split
  · exact readAt _ _
  · exact readByName (.inr rfl) name
  · exact readByName (.inl rfl) name

theorem newFunction (code : Closure) : Finds env (newFunction code) := by
  intro m a m' hr
  cases hr
  exact .inr (.inl ⟨Nat.le_refl _, Nat.lt_succ_self _⟩)

theorem methodValue (method : Closure) (object : Value) :
    Finds env (methodValue method object) := by
  intro m a m' hr
  cases hr
  exact .inr (.inl ⟨Nat.le_refl _, Nat.lt_succ_self _⟩)

theorem getSuper (binding : Binding) (method : Name) : Finds env (getSuper env binding method) := by
  intro m a m' hr
  cases binding with
  | global => cases hr
  | «local» distance =>
    obtain ⟨parent, m₁, hparent, hr⟩ := bind_eq_ok.mp hr
    have h₁ := of_eq (extends_stepLaw.readAt _ _ _) hparent
    cases parent with
    | classRef definition =>
      obtain ⟨object, m₂, hobject, hr⟩ := bind_eq_ok.mp hr
      have h₂ := of_eq (extends_stepLaw.readAt _ _ _) hobject
      cases hmethod : definition.findMethod? method.text with
      | none =>
        simp only [hmethod] at hr
        cases hr
      | some code =>
        simp only [hmethod] at hr
        exact (methodValue _ _ m₂ a m' hr).after (h₁.trans h₂)
    | _ => cases hr

end Finds

/-- A property of a found object is found. -/
theorem yields_getProperty {roots : Set Item} {h : Heap} {m m' : Machine} {id : ObjectId}
    {definition : Class} {property : Name} {a : Value} (he : h.Extends m.heap)
    (ho : h.Yields roots m.heap (.object id definition))
    (hr : getProperty id definition property m = .ok a m') : h.Yields roots m'.heap a := by
  obtain ⟨m₁, m₂, hget, hr⟩ := bind_eq_ok.mp hr
  cases hget
  cases hfield : m.heap.field? id property.text with
  | some value =>
    simp only [hfield] at hr
    cases hr
    -- The object itself is made between the heaps, or it can be reached.
    rcases ho with hp | hm | ho
    · cases hp
    · exact .inr (.inr ((Heap.Reach.root (.inr hm)).step (.field _ hfield)))
    · exact .inr (.inr ((ho.step (.fields id definition)).step (.field _ hfield)))
  | none =>
    simp only [hfield] at hr
    cases hmethod : definition.findMethod? property.text with
    | some method =>
      simp only [hmethod] at hr
      cases hr
      exact .inr (.inl ⟨he.nextId, Nat.lt_succ_self _⟩)
    | none =>
      simp only [hmethod] at hr
      cases hr

end Run

/-! ## Evaluation -/

/-- The environments from which a code finds its result. -/
def Code.roots : Code → Set Item
  | .node env _ => {.env env, .env .globals}
  | .invoke _ _ => {.env .globals}
  | .closure _ _ => {.env .globals}

/-- The value that a completion hands on is yielded. -/
def Completion.Yielded (roots : Set Item) (h h' : Heap) : Completion → Prop
  | .returned a => h.Yields roots h' a
  | _ => True

/-- The result of a code is yielded by the roots. -/
def Code.ResultYielded (roots : Set Item) (h h' : Heap) : (code : Code) → code.Result → Prop
  | .node _ (.expr _), a => h.Yields roots h' a
  | .node _ (.exprs _), _ => True
  | .node _ (.stmt _), c => c.Yielded roots h h'
  | .node _ (.stmts _), c => c.Yielded roots h h'
  | .node _ (.elifs _ _), c => c.Yielded roots h h'
  | .node _ (.loop _ _), c => c.Yielded roots h h'
  | .invoke _ _, a => h.Yields roots h' a
  | .closure _ _, a => h.Yields roots h' a

theorem Completion.Yielded.of_extends {roots roots' : Set Item} {h h₁ h₂ : Heap} {c : Completion}
    (he : h.Extends h₁) (hroots : ∀ i ∈ roots', i ∈ roots ∪ h.made h₂)
    (hy : c.Yielded roots' h₁ h₂) : c.Yielded roots h h₂ := by
  cases c with
  | returned a => exact Heap.Yields.of_extends he hroots hy
  | _ => trivial

theorem Code.ResultYielded.of_extends {roots roots' : Set Item} {h h₁ h₂ : Heap} {code : Code}
    {a : code.Result} (he : h.Extends h₁) (hroots : ∀ i ∈ roots', i ∈ roots ∪ h.made h₂)
    (hy : code.ResultYielded roots' h₁ h₂ a) : code.ResultYielded roots h h₂ a := by
  cases code with
  | node env n =>
    cases n with
    | expr e => exact Heap.Yields.of_extends he hroots hy
    | exprs es => trivial
    | stmt s => exact Completion.Yielded.of_extends he hroots hy
    | stmts body => exact Completion.Yielded.of_extends he hroots hy
    | elifs branches elseBranch => exact Completion.Yielded.of_extends he hroots hy
    | loop condition body => exact Completion.Yielded.of_extends he hroots hy
  | invoke callee values => exact Heap.Yields.of_extends he hroots hy
  | closure code values => exact Heap.Yields.of_extends he hroots hy

namespace Plan

/-- A plan that is followed from the machine `m` on comes to results with the property `Q`,
if the codes that it visits have yielded results. -/
def Finds {α : Type} (Q : Machine → α → Prop) : Plan α → Machine → Prop
  | finish a, m => Q m a
  | act step next, m => ∀ b m', step m = .ok b m' → Finds Q (next b) m'
  | call _ _ code next, m => ∀ a m', m.heap.Extends m'.heap →
      code.ResultYielded code.roots m.heap m'.heap a → Finds Q (next a) m'

namespace Finds

variable {α β : Type} {Q : Machine → α → Prop} {Q' : Machine → β → Prop} {m : Machine}

theorem bind {p : Plan β} {f : β → Plan α} (hp : p.Finds Q' m)
    (hf : ∀ b m', Q' m' b → (f b).Finds Q m') : (p >>= f).Finds Q m := by
  induction p generalizing m with
  | finish b => exact hf b m hp
  | act step next ih => exact fun b m' hs => ih b (hp b m' hs)
  | call part depth code next ih => exact fun a m' he hy => ih a (hp a m' he hy)

theorem ite {c : Prop} [Decidable c] {p q : Plan α} (hp : p.Finds Q m) (hq : q.Finds Q m) :
    (if c then p else q).Finds Q m := by
  split
  · exact hp
  · exact hq

theorem follow {child : (depth : Nat) → (code : Code) → Run code.Result}
    (hextends : ∀ depth code, (child depth code).Respects HeapExtends)
    (hchild : ∀ depth code m a m', child depth code m = .ok a m' →
      code.ResultYielded code.roots m.heap m'.heap a)
    {p : Plan α} (hp : p.Finds Q m) {a : α} {m' : Machine} (hr : p.follow child m = .ok a m') :
    Q m' a := by
  induction p generalizing m with
  | finish b =>
    cases hr
    exact hp
  | act step next ih =>
    obtain ⟨b, m₁, hs, hr⟩ := bind_eq_ok.mp hr
    exact ih b (hp b m₁ hs) hr
  | call part depth code next ih =>
    obtain ⟨b, m₁, hs, hr⟩ := bind_eq_ok.mp hr
    have he := hextends depth code m
    rw [hs] at he
    exact ih b (hp b m₁ he (hchild depth code m b m₁ hs)) hr

/-! ### Rules for visits -/

section

variable {h : Heap} {env : EnvId} {i depth : Nat} (he : h.Extends m.heap)
include he

theorem expr (e : Expr Binding) :
    (Plan.expr i depth env e).Finds (fun m' a => h.Extends m'.heap ∧
      h.Yields {.env env, .env .globals} m'.heap a) m :=
  fun _ _ he' hy => ⟨he.trans he', hy.after he⟩

theorem exprs (es : List (Expr Binding)) :
    (Plan.exprs i depth env es).Finds (fun m' _ => h.Extends m'.heap) m :=
  fun _ _ he' _ => he.trans he'

theorem stmt (s : Stmt Binding) :
    (Plan.stmt i depth env s).Finds (fun m' c => h.Extends m'.heap ∧
      c.Yielded {.env env, .env .globals} h m'.heap) m :=
  fun _ _ he' hy => ⟨he.trans he', hy.of_extends he fun _ hi => .inl hi⟩

theorem stmts (body : List (Stmt Binding)) :
    (Plan.stmts i depth env body).Finds (fun m' c =>
      c.Yielded {.env env, .env .globals} h m'.heap) m :=
  fun _ _ _ hy => hy.of_extends he fun _ hi => .inl hi

theorem elifs (branches : List (Elif Binding)) (elseBranch : Option (Stmt Binding)) :
    (Plan.elifs i depth env branches elseBranch).Finds (fun m' c =>
      c.Yielded {.env env, .env .globals} h m'.heap) m :=
  fun _ _ _ hy => hy.of_extends he fun _ hi => .inl hi

theorem loop (condition : Expr Binding) (body : Stmt Binding) :
    (Plan.loop i depth env condition body).Finds (fun m' c =>
      c.Yielded {.env env, .env .globals} h m'.heap) m :=
  fun _ _ _ hy => hy.of_extends he fun _ hi => .inl hi

/-- A step on the way, whatever it completes with. -/
theorem lift {step : Run β} (hs : step.Respects HeapExtends) :
    (Plan.lift step).Finds (fun m' _ => h.Extends m'.heap) m := by
  intro b m' hr
  have he' := hs m
  rw [hr] at he'
  exact he.trans he'

/-- A last step. -/
theorem found {step : Run Value} (hs : step.Finds env) :
    (Plan.lift step).Finds (fun m' a => h.Yields {.env env, .env .globals} m'.heap a) m :=
  fun a m' hr => (hs m a m' hr).after he

end

end Finds

end Plan

section

variable (settings : Settings) (depth : Nat) (env : EnvId)

theorem Run.yields_write {h : Heap} {roots : Set Item} {name : Name} {binding : Binding}
    {a : Value} {m m' : Machine} {u : Unit} (hy : h.Yields roots m.heap a)
    (hw : write settings env name binding a m = .ok u m') : h.Yields roots m'.heap a := by
  have hdefine : ∀ (outer : EnvId) (x : String), h.Yields roots (m.heap.define outer x a) a :=
    fun outer x => hy.stays ⟨Heap.grows_define .., Nat.le_refl _, Nat.le_refl _⟩ fun _ hr =>
      hr.define outer x
  have hname : ∀ from' : EnvId, writeByName from' name a m = .ok u m' →
      h.Yields roots m'.heap a := by
    intro from' hw
    unfold writeByName at hw
    split at hw <;> cases hw
    exact hdefine _ _
  unfold write at hw
  cases hl : settings.lookup <;> rw [hl] at hw
  · cases binding with
    | global => exact hname _ hw
    | «local» distance =>
      simp only [writeAt] at hw
      split at hw <;> cases hw
      exact hdefine _ _
  · exact hname _ hw

theorem Expr.plan_finds (e : Expr Binding) (m : Machine) :
    (e.plan settings depth env).Finds
      (fun m' a => m.heap.Yields {.env env, .env .globals} m'.heap a) m := by
  have hrefl := Heap.Extends.refl m.heap
  cases e with
  | literal value => exact .inl (Value.plain_ofLiteral value)
  | grouping inner => exact (Plan.Finds.expr hrefl inner).bind fun _ _ ha => ha.2
  | unary op line operand =>
    exact (Plan.Finds.expr hrefl operand).bind fun _ _ ha =>
      .found ha.1 (.orFail line fun _ => UnaryOp.plain_of_apply)
  | binary left op line right =>
    exact (Plan.Finds.expr hrefl left).bind fun _ _ ha =>
      (Plan.Finds.expr ha.1 right).bind fun _ _ hb =>
        .found hb.1 (.orFail line fun _ => BinaryOp.plain_of_apply)
  | logical left op line right =>
    exact (Plan.Finds.expr hrefl left).bind fun _ _ ha =>
      .ite ha.2 ((Plan.Finds.expr ha.1 right).bind fun _ _ hb => hb.2)
  | «variable» target => exact .found hrefl (.read settings _ _)
  | assign target value =>
    exact (Plan.Finds.expr hrefl value).bind fun _ _ ha _ _ hw =>
      yields_write settings env ha.2 hw
  | call callee line arguments =>
    refine (Plan.Finds.expr hrefl callee).bind fun f _ hf =>
      (Plan.Finds.exprs hf.1 arguments).bind fun values _ hvalues =>
        (Plan.Finds.lift hvalues (extends_stepLaw.checkCall settings depth f _ _)).bind
          fun _ _ he => ?_
    exact fun a m' _ hy => hy.of_extends he fun i hi => .inl (.inr hi)
  | get object property =>
    refine (Plan.Finds.expr hrefl object).bind fun a m₁ ha => ?_
    split
    · exact fun b m' hr => yields_getProperty ha.1 ha.2 hr
    · exact fun b m' hr => by cases hr
  | set object field value =>
    refine (Plan.Finds.expr hrefl object).bind fun a m₁ ha => ?_
    split
    · rename_i id _
      refine (Plan.Finds.expr ha.1 value).bind fun b m₂ hb u m₃ hset => ?_
      cases hset
      have he : m₂.heap.Extends (m₂.heap.setField id field.text b) :=
        extends_stepLaw.setField m₂ id field.text b
      exact hb.2.stays he fun _ hr => hr.setField id field.text
    · exact fun b m' hr => by cases hr
  | this line binding => exact .found hrefl (.read settings _ _)
  | super line method binding => exact .found hrefl (.getSuper _ _)
  | lambda line parameters body => exact .found hrefl (.newFunction _)

theorem Stmt.plan_finds (s : Stmt Binding) (m : Machine) :
    (s.plan settings depth env).Finds
      (fun m' c => c.Yielded {.env env, .env .globals} m.heap m'.heap) m := by
  have hrefl := Heap.Extends.refl m.heap
  have law := extends_stepLaw
  cases s with
  | expression value => exact (Plan.Finds.expr hrefl value).bind fun _ _ _ => trivial
  | print value => exact (Plan.Finds.expr hrefl value).bind fun _ _ _ _ _ _ => trivial
  | var name initializer =>
    cases initializer with
    | none => exact fun _ _ _ => trivial
    | some value => exact (Plan.Finds.expr hrefl value).bind fun _ _ _ _ _ _ => trivial
  | block body =>
    intro inner m₁ hnew c m' he hy
    cases hnew
    refine hy.of_extends (law.pushEnv m env ∅) fun i hi => ?_
    rcases hi with rfl | hi
    · -- The inner environment is made by this evaluation.
      exact .inr ⟨Nat.le_refl _, Nat.lt_of_lt_of_le (by simp [Heap.nextEnv]) he.grows.size⟩
    · exact .inl (.inr hi)
  | ifStmt condition thenBranch elifs elseBranch =>
    exact (Plan.Finds.expr hrefl condition).bind fun _ _ ha =>
      (Plan.Finds.lift ha.1 (law.note settings 3 _)).bind fun _ _ he =>
        .ite ((Plan.Finds.stmt he thenBranch).bind fun _ _ hc => hc.2)
          (.elifs he elifs elseBranch)
  | whileStmt condition body => exact .loop hrefl condition body
  | functionDecl f => exact fun _ _ _ => trivial
  | returnStmt line value =>
    cases value with
    | none => exact .inl trivial
    | some value => exact (Plan.Finds.expr hrefl value).bind fun _ _ ha => ha.2
  | breakStmt line => exact trivial
  | classDecl name superclass methods => exact fun _ _ _ => trivial

end

/-- A completed call yields what its statements return, or `this` of an initializer. -/
theorem Run.yields_callValue {h : Heap} {env : EnvId} {code : Closure} {c : Completion}
    {m m' : Machine} {a : Value} (henv : .env env ∈ h.made m.heap)
    (hparent : m.heap.parent? env = some code.scope)
    (hc : c.Yielded {.env .globals} h m.heap) (hr : callValue code c m = .ok a m') :
    h.Yields {.env .globals} m'.heap a := by
  unfold callValue at hr
  by_cases hinit : code.isInitializer = true
  · rw [if_pos hinit] at hr
    unfold readAt at hr
    split at hr <;> cases hr
    rename_i hthis
    have hscope : m.heap.Reach ({.env .globals} ∪ h.made m.heap) (.env code.scope) :=
      (Heap.Reach.root (.inr henv)).step (.parent hparent)
    exact .inr (.inr (hscope.getAt hthis))
  · rw [if_neg hinit] at hr
    cases c with
    | returned b =>
      cases hr
      exact hc
    | _ =>
      cases hr
      exact .inl trivial

/-- One level of an evaluation yields its result. -/
theorem Code.plan_finds (settings : Settings) (depth : Nat) (code : Code) (m : Machine) :
    (code.plan settings depth).Finds
      (fun m' a => code.ResultYielded code.roots m.heap m'.heap a) m := by
  have hrefl := Heap.Extends.refl m.heap
  have law := extends_stepLaw
  cases code with
  | node env n =>
    cases n with
    | expr e => exact e.plan_finds settings depth env m
    | exprs es =>
      cases es with
      | nil => trivial
      | cons e rest => exact fun _ _ _ _ _ _ _ _ => trivial
    | stmt s => exact s.plan_finds settings depth env m
    | stmts body =>
      cases body with
      | nil => trivial
      | cons s rest =>
        refine (Plan.Finds.stmt hrefl s).bind fun completion m₁ hc => ?_
        split
        · exact .stmts hc.1 rest
        · exact hc.2
    | elifs branches elseBranch =>
      rcases branches with _ | ⟨⟨condition, body⟩, rest⟩
      · cases elseBranch with
        | none => trivial
        | some s => exact (Plan.Finds.stmt hrefl s).bind fun _ _ hc => hc.2
      · exact (Plan.Finds.expr hrefl condition).bind fun _ _ ha =>
          .ite ((Plan.Finds.stmt ha.1 body).bind fun _ _ hc => hc.2) (.elifs ha.1 rest elseBranch)
    | loop condition body =>
      refine (Plan.Finds.expr hrefl condition).bind fun _ _ ha =>
        (Plan.Finds.lift ha.1 (law.note settings 3 _)).bind fun _ _ he =>
          .ite trivial ((Plan.Finds.stmt he body).bind fun completion m₁ hc => ?_)
      split
      · exact .loop hc.1 condition body
      · trivial
      · exact hc.2
  | invoke callee values =>
    show (Plan.ofCall settings depth callee values).Finds
      (fun m' a => m.heap.Yields {.env .globals} m'.heap a) m
    unfold Plan.ofCall
    split
    · exact fun _ _ _ hy => hy
    · -- The object is made by this evaluation.
      rename_i definition
      intro id m₁ hnew
      cases hnew
      have hobject : ∀ m' : Machine, m.heap.pushObject.Extends m'.heap →
          m.heap.Yields {.env .globals} m'.heap (.object m.heap.nextObject definition) :=
        fun m' he => .inr (.inl ⟨Nat.le_refl _,
          Nat.lt_of_lt_of_le (by simp [Heap.nextObject, Heap.pushObject]) he.objects⟩)
      split
      · exact hobject _ (.refl _)
      · refine (Plan.Finds.lift (.refl _) (law.bindMethod _ _)).bind fun code _ he _ m' he' _ => ?_
        exact hobject m' (he.trans he')
    · exact fun _ _ hr => by cases hr; exact .inl trivial
    · exact .inl trivial
  | closure code values =>
    intro env m₁ hnew c m₂ he hy a m' hr
    cases hnew
    have hsize : m.heap.nextEnv.index < m₂.heap.environments.size :=
      Nat.lt_of_lt_of_le (by simp [Heap.nextEnv]) he.grows.size
    have henv : .env m.heap.nextEnv ∈ m.heap.made m₂.heap := ⟨Nat.le_refl _, hsize⟩
    have hparent : m₂.heap.parent? m.heap.nextEnv = some code.scope := by
      rw [he.grows.parent _ (by simp [Heap.nextEnv])]
      exact Heap.parent?_pushEnv_self ..
    refine yields_callValue henv hparent (hy.of_extends (law.pushEnv m _ _) fun i hi => ?_) hr
    rcases hi with rfl | hi
    · exact .inr henv
    · exact .inl hi

/-- The result of a completed evaluation is yielded by its environment and the globals. -/
theorem Run.run_yields (settings : Settings) (fuel : Nat) :
    ∀ (depth : Nat) (code : Code) (m : Machine) (a : code.Result) (m' : Machine),
      code.run settings fuel depth m = .ok a m' →
      code.ResultYielded code.roots m.heap m'.heap a := by
  induction fuel with
  | zero =>
    intro depth code m a m' hr
    rw [Code.run_zero] at hr
    cases hr
  | succ fuel ih =>
    intro depth code m a m' hr
    rw [Code.run_succ] at hr
    exact (code.plan_finds settings depth m).follow (extends_stepLaw.run settings fuel) ih hr

end ClassScript
