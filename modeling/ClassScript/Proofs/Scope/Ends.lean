import ClassScript.Proofs.Heap.Lookup
import ClassScript.Proofs.Scope.Known
import ClassScript.Proofs.Scope.Initializer

/-!
# How steps end

A step of an evaluation that starts with a known heap ends with a known one, and
its value is known (`Ends`).  If it aborts, it does so with a failure of the
program, for the end of the fuel, or because it reads a variable in the middle of
its declaration (`Abort.Allowed`).  There is no other way: `this` and `super` are
always found, and no distance leads past the outermost environment.
-/

namespace ClassScript

open Resolution Run

/-- The visit reads a variable of the scope at the distance `d`, whose initializer
is not complete, and which nothing has set in the meantime. -/
structure ReadsEarly (v : Visit) (w : Site) (ρ : Display) (name : Name) (d : Nat) : Prop where
  reads : w.resolved.read? = some (name, .local d)
  declaring : Pending name.text w.scopes d
  unset : ∃ env, ρ[d]? = some env ∧ ¬ v.heap.Has env name.text

section

variable (settings : Settings) (roots runs : List Root) {α : Type}

/-- How an evaluation in some of the runs may abort, and with which machine. -/
def Abort.Allowed : Abort → Machine → Prop
  | .access (.unset x), m => ∃ v w ρ name d, Reached settings runs v ∧
      Lockstep settings roots v w ρ ∧ ReadsEarly v w ρ name d ∧ name.text = x ∧ v.machine = m
  | .access .pastOutermost, _ => False
  | _, _ => True

/-- A step that starts with a naming and a machine ends with a known heap and, if
it does not abort, with a value that has the property `Q`. -/
def Ends (Q : Naming → Machine → α → Prop) (ν : Naming) (m : Machine) :
    EStateM.Result Abort Machine α → Prop
  | .ok a m' => ∃ ν', Later settings roots ν m.heap ν' m'.heap ∧ Q ν' m' a
  | .error e m' => e.Allowed settings roots runs m' ∧ ∃ ν', Later settings roots ν m.heap ν' m'.heap

/-- A value is known. -/
def KnownValue (ν : Naming) (m : Machine) (a : Value) : Prop := a.Known settings roots ν m.heap

/-- Any value will do. -/
def AnyValue (_ : Naming) (_ : Machine) (_ : α) : Prop := True

end

variable {settings : Settings} {roots runs : List Root} {ν : Naming} {m : Machine}

namespace Ends

variable {α β : Type} {Q : Naming → Machine → α → Prop} {Q' : Naming → Machine → β → Prop}

theorem ok {a : α} (hk : m.heap.Known settings roots ν) (hq : Q ν m a) :
    Ends settings roots runs Q ν m (.ok a m) :=
  ⟨ν, .refl hk, hq⟩

theorem failure (hk : m.heap.Known settings roots ν) (f : Failure) :
    Ends settings roots runs Q ν m (.error (.failure f) m) :=
  ⟨trivial, ν, .refl hk⟩

theorem imp {r : EStateM.Result Abort Machine α} {P : Naming → Machine → α → Prop}
    (hr : Ends settings roots runs P ν m r)
    (hq : ∀ a ν' m', Later settings roots ν m.heap ν' m'.heap → P ν' m' a → Q ν' m' a) :
    Ends settings roots runs Q ν m r := by
  cases r with
  | ok a m' =>
    obtain ⟨ν', hl, hp⟩ := hr
    exact ⟨ν', hl, hq a ν' m' hl hp⟩
  | error e m' => exact hr

/-- A later step that ends well. -/
theorem after {ν' : Naming} {m' : Machine} {r : EStateM.Result Abort Machine α}
    (hr : Ends settings roots runs Q ν' m' r) (hl : Later settings roots ν m.heap ν' m'.heap) :
    Ends settings roots runs Q ν m r := by
  cases r with
  | ok a m'' =>
    obtain ⟨ν'', hl', hq⟩ := hr
    exact ⟨ν'', hl.trans hl', hq⟩
  | error e m'' =>
    obtain ⟨he, ν'', hl'⟩ := hr
    exact ⟨he, ν'', hl.trans hl'⟩

theorem bind {x : Run β} {f : β → Run α} (hx : Ends settings roots runs Q' ν m (x m))
    (hf : ∀ b ν' m', Later settings roots ν m.heap ν' m'.heap → Q' ν' m' b →
      Ends settings roots runs Q ν' m' (f b m')) :
    Ends settings roots runs Q ν m ((x >>= f) m) := by
  rw [bind_apply]
  cases hr : x m with
  | error e m' =>
    rw [hr] at hx
    exact hx
  | ok b m' =>
    rw [hr] at hx
    obtain ⟨ν', hl, hq⟩ := hx
    exact (hf b ν' m' hl hq).after hl

end Ends

section

variable (hk : m.heap.Known settings roots ν)
include hk

theorem emit_ends (event : Event) : Ends settings roots runs AnyValue ν m (emit event m) :=
  ⟨ν, .refl hk, trivial⟩

theorem note_ends (level : Nat) (line : String) :
    Ends settings roots runs AnyValue ν m
      ((if level ≤ settings.verbosity then emit (.noted line) else pure () : Run Unit) m) := by
  rw [note_apply]
  have hh : (m.noted settings level line).heap = m.heap := Machine.heap_noted ..
  refine ⟨ν, ?_, trivial⟩
  rw [hh]
  exact .refl hk

theorem readClock_ends : Ends settings roots runs (KnownValue settings roots) ν m
    (readClock settings m) :=
  ⟨ν, .refl hk, trivial⟩

/-! ## Operators -/

theorem orFail_ends {line : Nat} {r : Except RuntimeError Value}
    (hr : ∀ a, r = .ok a → a.Known settings roots ν m.heap) :
    Ends settings roots runs (KnownValue settings roots) ν m (orFail line r m) := by
  cases r with
  | ok a => exact .ok hk (hr a rfl)
  | error e => exact .failure hk _

end

theorem UnaryOp.known_of_apply {op : UnaryOp} {a b : Value} {h : Heap}
    (hr : op.apply a = .ok b) : b.Known settings roots ν h := by
  cases op with
  | not =>
    cases hr
    trivial
  | negate =>
    cases a <;> cases hr
    trivial

theorem BinaryOp.known_of_apply {op : BinaryOp} {a b c : Value} {h : Heap}
    (hr : op.apply a b = .ok c) : c.Known settings roots ν h := by
  have hnumbers : ∀ f : Float → Float → Except RuntimeError Value,
      (∀ x y c, f x y = .ok c → c.Known settings roots ν h) →
      Value.onNumbers f a b = .ok c → c.Known settings roots ν h := by
    intro f hf hc
    unfold Value.onNumbers at hc
    split at hc
    · exact hf _ _ _ hc
    · cases hc
  cases op with
  | add =>
    simp only [BinaryOp.apply, Value.add] at hr
    split at hr
    · cases hr
      trivial
    · split at hr <;> cases hr
      trivial
  | equal =>
    cases hr
    trivial
  | notEqual =>
    cases hr
    trivial
  | divide =>
    refine hnumbers _ (fun x y c hc => ?_) hr
    unfold quotient at hc
    split at hc <;> cases hc
    trivial
  | _ =>
    refine hnumbers _ (fun x y c hc => ?_) hr
    cases hc
    trivial

/-! ## Variables -/

theorem Ready.at {h : Heap} {scopes : List StaticScope} {ρ : Display}
    (hr : List.Forall₂ (Ready h) scopes ρ) {d : Nat} {scope : StaticScope}
    (hs : scopes[d]? = some scope) : ∃ env, ρ[d]? = some env ∧ Ready h scope env := by
  induction hr generalizing d with
  | nil => cases hs
  | @cons first env outer rest hf _ ih =>
    cases d with
    | zero =>
      cases hs
      exact ⟨env, rfl, hf⟩
    | succ d => exact ih hs

theorem Covers.at {scopes : List StaticScope} {names : List (List String)}
    (hc : List.Forall₂ Covers scopes names) {d : Nat} {scope : StaticScope}
    {declared : List String} (hs : scopes[d]? = some scope) (hd : names[d]? = some declared) :
    Covers scope declared := by
  induction hc generalizing d with
  | nil => cases hs
  | cons hf _ ih =>
    cases d with
    | zero =>
      cases hs
      cases hd
      exact hf
    | succ d => exact ih hs hd

/-- A name that is ready for use in its scope is set. -/
theorem Nearest.has {v : Visit} {w : Site} {ρ : Display} {x : String} {d : Nat}
    (hn : Nearest x w.scopes d) (hf : Fits v w ρ) :
    ∃ env, ρ[d]? = some env ∧ v.heap.Has env x := by
  obtain ⟨-, scope, hs, hx⟩ := hn
  obtain ⟨env, he, hr⟩ := Ready.at hf.ready hs
  exact ⟨env, he, hr x hx⟩

theorem Heap.Chain.getAt {h : Heap} {env outer : EnvId} {ρ : Display} (hc : h.Chain env ρ)
    {d : Nat} (hd : ρ[d]? = some outer) (x : String) :
    h.getAt env d x = ((h.slots outer).get? x).elim (.error (.unset x)) .ok := by
  rw [Heap.getAt, hc.ancestorEnv hd]
  dsimp only
  cases (h.slots outer).get? x <;> rfl

theorem readAt_of_slot {env outer : EnvId} {ρ : Display} {d : Nat} {x : String} {a : Value}
    (hc : m.heap.Chain env ρ) (hd : ρ[d]? = some outer)
    (hx : (m.heap.slots outer).get? x = some a) : readAt env d x m = .ok a m := by
  simp [readAt, hc.getAt hd, hx]

theorem readAt_eq_ok {env outer : EnvId} {ρ : Display} {d : Nat} {x : String}
    (hc : m.heap.Chain env ρ) (hd : ρ[d]? = some outer) (hx : m.heap.Has outer x) :
    ∃ a, readAt env d x m = .ok a m ∧ (m.heap.slots outer).get? x = some a := by
  obtain ⟨a, ha⟩ := Option.isSome_iff_exists.mp hx
  exact ⟨a, readAt_of_slot hc hd ha, ha⟩

/-- What is read at a distance is the value of a variable. -/
theorem slot_of_readAt {env : EnvId} {d : Int} {x : String} {a : Value} {m' : Machine}
    (hr : readAt env d x m = .ok a m') : ∃ outer, (m.heap.slots outer).get? x = some a := by
  unfold readAt Heap.getAt at hr
  cases ho : m.heap.ancestorEnv env d with
  | error e =>
    rw [ho] at hr
    cases hr
  | ok outer =>
    simp only [ho] at hr
    cases hx : (m.heap.slots outer).get? x with
    | none =>
      rw [hx] at hr
      cases hr
    | some b =>
      rw [hx] at hr
      cases hr
      exact ⟨outer, hx⟩

/-- `this` is found at its distance. -/
theorem Fits.readsThis {v : Visit} {w : Site} {ρ : Display} (hf : Fits v w ρ) {line : Nat}
    {b : Binding} (hr : w.resolved = .expr (.this line b)) :
    ∃ (d : Nat) (env : EnvId) (a : Value), b = .local d ∧
      readAt ρ.env d "this" v.machine = .ok a v.machine ∧
      (v.heap.slots env).get? "this" = some a := by
  obtain ⟨d, rfl, hd⟩ := hf.sound.this hr
  obtain ⟨env, he, hx⟩ := hd.has hf
  obtain ⟨a, ha, hs⟩ := readAt_eq_ok hf.chain he hx
  exact ⟨d, env, a, rfl, ha, hs⟩

/-- The superclass is found at the distance of `super`, and the object one step
closer. -/
theorem Fits.readsSuper {v : Visit} {w : Site} {ρ : Display} (hf : Fits v w ρ)
    (hk : v.heap.Known settings roots ν) {line : Nat} {method : Name} {b : Binding}
    (hr : w.resolved = .expr (.super line method b)) :
    ∃ (d : Nat) (parent : Class) (object : Value), b = .local d ∧
      readAt ρ.env d "super" v.machine = .ok (.classRef parent) v.machine ∧
      readAt ρ.env (d - 1) "this" v.machine = .ok object v.machine ∧
      parent.Known settings roots ν v.heap ∧ object.Known settings roots ν v.heap := by
  obtain ⟨d, rfl, ht, hs⟩ := hf.sound.super hr
  obtain ⟨envThis, heThis, hxThis⟩ := ht.has hf
  obtain ⟨envSuper, heSuper, hxSuper⟩ := hs.has hf
  obtain ⟨object, hobject, hslot⟩ := readAt_eq_ok hf.chain heThis hxThis
  obtain ⟨a, hread, hslot'⟩ := readAt_eq_ok hf.chain heSuper hxSuper
  -- The scope of `super` holds a class, and that of `this` lies just inside of it.
  obtain ⟨parent, rfl⟩ := hk.supers _ _ hslot'
  have hdistance : ((d + 1 : Nat) : Int) - 1 = (d : Int) := by omega
  refine ⟨d + 1, parent, object, rfl, hread, ?_, hk.values _ _ _ hslot', hk.values _ _ _ hslot⟩
  rw [hdistance]
  exact hobject

section

variable {v : Visit} {w : Site} {ρ : Display} (hb : settings.lookup = .bound)
  (hk : v.heap.Known settings roots ν)
include hb hk

/-- Reading the variable that a site reads. -/
theorem read_ends (hroots : ∀ r ∈ roots, r.Accepted) (hv : Reached settings runs v)
    (hl : Lockstep settings roots v w ρ) {name : Name} {b : Binding}
    (hr : w.resolved.read? = some (name, b)) :
    Ends settings roots runs (KnownValue settings roots) ν v.machine
      (read settings ρ.env name b v.machine) := by
  have hf := hl.fits hroots
  obtain ⟨hbinding, -⟩ := hf.sound.read hr
  unfold Run.read
  rw [hb]
  cases b with
  | global =>
    show Ends _ _ _ _ _ _ (readByName .globals name v.machine)
    unfold readByName
    split
    · rename_i a ha
      obtain ⟨holder, hh⟩ := Heap.get?_of_find? ha
      exact .ok hk (hk.values holder _ a hh)
    · exact .failure hk _
  | «local» d =>
    show Ends _ _ _ _ _ _ (readAt ρ.env d name.text v.machine)
    obtain ⟨⟨scope, hs, hc⟩, -⟩ := holds_of_bindingOf hbinding.symm
    obtain ⟨env, he, hready⟩ := Ready.at hf.ready hs
    unfold readAt
    rw [hf.chain.getAt he]
    cases hx : (v.heap.slots env).get? name.text with
    | some a => exact .ok hk (hk.values env _ a hx)
    | none =>
      have hunset : ¬ v.heap.Has env name.text := by simp [Heap.Has, Slots.contains, hx]
      -- The name is in the scope, and were it ready there, it would be set.
      have hfalse : scope.get? name.text = some false := by
        obtain ⟨ready, hq⟩ := Option.isSome_iff_exists.mp hc
        cases ready with
        | true => exact absurd (hready _ hq) hunset
        | false => exact hq
      exact ⟨⟨v, w, ρ, name, d, hv, hl, ⟨hr, ⟨scope, hs, hfalse⟩, ⟨env, he, hunset⟩⟩, rfl, rfl⟩, ν,
        .refl hk⟩

theorem readThis_ends (hf : Fits v w ρ) {line : Nat} {b : Binding}
    (hr : w.resolved = .expr (.this line b)) :
    Ends settings roots runs (KnownValue settings roots) ν v.machine
      (read settings ρ.env ⟨"this", line⟩ b v.machine) := by
  obtain ⟨d, env, a, rfl, ha, hs⟩ := hf.readsThis hr
  unfold Run.read
  rw [hb]
  show Ends _ _ _ _ _ _ (readAt ρ.env d "this" v.machine)
  rw [ha]
  exact .ok hk (hk.values env _ a hs)

omit hk in
/-- Assigning to the variable that a site assigns to, when its value is there. -/
theorem write_ends (hroots : ∀ r ∈ roots, r.Accepted) (hf : Fits v w ρ)
    {target : Reference Binding} {value : Expr Binding}
    (hr : w.resolved = .expr (.assign target value)) {ν' : Naming}
    (hn : ρ.map ν = w.names) (hl : Later settings roots ν v.heap ν' m.heap) {a : Value}
    (ha : a.Known settings roots ν' m.heap) :
    Ends settings roots runs AnyValue ν' m
      (write settings ρ.env target.name target.binding a m) := by
  obtain ⟨hbinding, hordinary⟩ := hf.sound.assign hr
  have hk := hl.known
  unfold Run.write
  rw [hb]
  cases htarget : target.binding with
  | global =>
    show Ends _ _ _ _ _ _ (writeByName .globals target.name a m)
    unfold writeByName
    split
    · rename_i holder hh
      have hx := Heap.has_of_holder? hh
      exact ⟨ν', hk.define hroots (Heap.lt_size_of_has hx)
        (ha.mono hroots (Heap.extends_define ..) fun _ _ => rfl) hordinary.2
        fun hne => hk.named holder _ hne hx, trivial⟩
    · exact .failure hk _
  | «local» d =>
    show Ends _ _ _ _ _ _ (writeAt ρ.env d target.name.text a m)
    rw [htarget] at hbinding
    obtain ⟨⟨scope, hs, hc⟩, -⟩ := holds_of_bindingOf hbinding.symm
    obtain ⟨env, he, -⟩ := Ready.at hf.ready hs
    have hchain := hf.chain.mono hl.grows
    have hlt := hf.chain.mem_lt_size env (List.mem_of_getElem? he)
    have hnames : target.name.text ∈ ν' env := by
      have hd : w.names[d]? = some (ν env) := by
        rw [← hn, List.getElem?_map, he]
        rfl
      rw [hl.keeps env hlt]
      exact (Covers.at hf.sound.framed.covers hs hd).mem _ hc
    unfold writeAt
    rw [hchain.ancestorEnv he]
    exact ⟨ν', hk.define hroots (Nat.lt_of_lt_of_le hlt hl.grows.size)
      (ha.mono hroots (Heap.extends_define ..) fun _ _ => rfl) hordinary.2 fun _ => hnames,
      trivial⟩

end

/-! ## Functions, methods and properties -/

/-- A function that is an initializer was bound to an object. -/
theorem Made.has_this {h : Heap} {code : Closure} {f : FunctionSite} {ρ : Display}
    (hm : Made settings roots h code f ρ) (hi : code.isInitializer = true) :
    h.Has code.scope "this" := by
  cases hm with
  | @function v w f ρ a m hl hw hr =>
    obtain ⟨context, names, node, state⟩ := w
    unfold Site.function? at hw
    split at hw <;> cases hw <;> cases hi
  | bound hmethod hg =>
    unfold Heap.Has
    simp [FunctionSite.code, Slots.contains, Slots.get?, Slots.single, Slots.find?]

/-- The object of an initializer is found in the environment that it was made in. -/
theorem Closure.Known.readsThis {code : Closure} (hc : code.Known settings roots ν m.heap)
    (hi : code.isInitializer = true) :
    ∃ a, readAt code.scope 0 "this" m = .ok a m ∧
      (m.heap.slots code.scope).get? "this" = some a := by
  obtain ⟨h₀, f, ρ, hmade, hg, -⟩ := hc
  obtain ⟨a, hs⟩ := Option.isSome_iff_exists.mp (hg.has _ _ (hmade.has_this hi))
  exact ⟨a, by simp [readAt, Heap.getAt, Heap.ancestorEnv, Heap.ascend, hs], hs⟩

/-- A completion hands on a known value, if any. -/
def Completion.Known (settings : Settings) (roots : List Root) (ν : Naming) (h : Heap) :
    Completion → Prop
  | .returned a => a.Known settings roots ν h
  | _ => True

section

variable (hroots : ∀ r ∈ roots, r.Accepted) (hk : m.heap.Known settings roots ν)
include hroots hk

theorem newObject_ends :
    Ends settings roots runs (fun _ m' id => id.index < m'.heap.objects.size) ν m (newObject m) :=
  ⟨ν, hk.pushObject hroots, by simp [Heap.nextObject, Heap.pushObject]⟩

theorem newEnv_ends {parent : EnvId} {slots : Slots Value} {declared : List String}
    (hv : ∀ x a, slots.get? x = some a → a.Known settings roots ν m.heap)
    (hs : slots.contains "super" = false)
    (hd : ∀ x, slots.contains x = true → x ∈ declared) :
    Ends settings roots runs (fun ν' _ env => env = m.heap.nextEnv ∧ ν' env = declared) ν m
      (newEnv parent slots m) := by
  refine ⟨ν.push m.heap declared, hk.pushEnv hroots hv (fun a ha => ?_) hd, rfl,
    Naming.push_nextEnv ..⟩
  rw [Slots.contains, ha] at hs
  cases hs

theorem setField_ends {object : ObjectId} {field : String} {a : Value}
    (ha : a.Known settings roots ν m.heap) :
    Ends settings roots runs AnyValue ν m (modifyHeap (·.setField object field a) m) :=
  ⟨ν, hk.setField hroots ha, trivial⟩

theorem newFunction_ends {code : Closure} (hc : code.Known settings roots ν m.heap) :
    Ends settings roots runs (KnownValue settings roots) ν m (newFunction code m) := by
  have hl := hk.takeId hroots
  exact ⟨ν, hl, hc.mono hroots hl.grows hl.keeps⟩

/-- A method that is bound to an object becomes a function of its own. -/
theorem bindMethod_ends {method : Closure} {object : Value}
    (hm : method.KnownMethod settings roots ν m.heap) (ho : object.Known settings roots ν m.heap) :
    Ends settings roots runs (fun ν' m' code => code.Known settings roots ν' m'.heap ∧
      code.parameters = method.parameters) ν m (bindMethod method object m) := by
  have hsingle : ∀ x a, (Slots.single "this" object).get? x = some a → x = "this" ∧ a = object := by
    intro x a hx
    have hc : (Slots.single "this" object).contains x = true := by simp [Slots.contains, hx]
    obtain rfl := (Slots.contains_single ..).mp hc
    exact ⟨rfl, (Option.some.inj hx).symm⟩
  have hl : Later settings roots ν m.heap (ν.push m.heap ["this"])
      (m.pushEnv method.scope (Slots.single "this" object)).heap := by
    refine hk.pushEnv hroots (fun x a hx => ?_) (fun a hx => ?_) fun x hx => ?_
    · rw [(hsingle x a hx).2]
      exact ho
    · exact absurd (hsingle _ a hx).1 (by decide)
    · rw [(Slots.contains_single ..).mp hx]
      exact List.mem_cons_self ..
  obtain ⟨h₀, f, ρ, hmade, hg, hn⟩ := hm
  have hf := Method.fits hroots hmade
  obtain rfl := hf.code
  refine ⟨_, hl, ⟨_, f, _, Made.bound hmade hg, .refl _, ?_⟩, rfl⟩
  rw [hn, List.map_cons, hl.map_eq (hf.chain.mono hg)]
  exact congrArg (· :: _) (Naming.push_nextEnv ..)

theorem methodValue_ends {method : Closure} {object : Value}
    (hm : method.KnownMethod settings roots ν m.heap) (ho : object.Known settings roots ν m.heap) :
    Ends settings roots runs (KnownValue settings roots) ν m (methodValue method object m) :=
  .bind (bindMethod_ends hroots hk hm ho) fun _ _ _ hl hc => newFunction_ends hroots hl.known hc.1

theorem getProperty_ends {object : ObjectId} {definition : Class} {property : Name}
    (hd : (Value.object object definition).Known settings roots ν m.heap) :
    Ends settings roots runs (KnownValue settings roots) ν m
      (getProperty object definition property m) := by
  unfold getProperty
  rw [bind_apply]
  dsimp only [get, getThe, MonadStateOf.get, EStateM.get]
  cases hx : m.heap.field? object property.text with
  | some a => exact .ok hk (hk.fields object _ a hx)
  | none =>
    cases hm : definition.findMethod? property.text with
    | some method => exact methodValue_ends hroots hk (hd.2.findMethod hm) hd
    | none => exact .failure hk _

omit hroots in
theorem callValue_ends {code : Closure} {completion : Completion}
    (hc : code.Known settings roots ν m.heap)
    (ha : completion.Known settings roots ν m.heap) :
    Ends settings roots runs (KnownValue settings roots) ν m (callValue code completion m) := by
  unfold callValue
  split
  · rename_i hi
    obtain ⟨a, hread, hs⟩ := hc.readsThis hi
    rw [hread]
    exact .ok hk (hk.values _ _ a hs)
  · split
    · exact .ok hk ha
    · exact .ok hk trivial

omit hroots in
/-- A call that is made has as many arguments as its callee has parameters. -/
theorem checkCall_ends {depth : Nat} {callee : Value} {count line : Nat} :
    Ends settings roots runs (fun _ _ _ => callee.arity? = some count) ν m
      (checkCall settings depth callee count line m) := by
  rw [checkCall_apply]
  have hl : Later settings roots ν m.heap ν (m.noted settings 2 (callNote callee count)).heap := by
    rw [Machine.heap_noted]
    exact .refl hk
  split
  · exact .failure hk _
  · rename_i arity harity
    by_cases hc : count = arity
    · rw [if_pos hc]
      split
      · exact ⟨trivial, ν, hl⟩
      · exact ⟨ν, hl, hc ▸ harity⟩
    · rw [if_neg hc]
      exact .failure hk _

theorem getSuper_ends {v : Visit} {w : Site} {ρ : Display} (hf : Fits v w ρ)
    (hv : v.machine = m) {line : Nat} {method : Name} {b : Binding}
    (hr : w.resolved = .expr (.super line method b)) :
    Ends settings roots runs (KnownValue settings roots) ν m (getSuper ρ.env b method m) := by
  subst hv
  obtain ⟨d, parent, object, rfl, hread, hobject, hparent, hknown⟩ := hf.readsSuper hk hr
  unfold getSuper
  simp only [bind_apply, hread, hobject]
  cases hm : parent.findMethod? method.text with
  | none => exact .failure hk _
  | some code => exact methodValue_ends hroots hk (hparent.findMethod hm) hknown

/-! ## Declarations -/

theorem declareVariable_ends {env : EnvId} {name : Name} {a : Value}
    (hlt : env.index < m.heap.environments.size) (hordinary : name.Ordinary)
    (hnames : env ≠ .globals → name.text ∈ ν env) (ha : a.Known settings roots ν m.heap) :
    Ends settings roots runs AnyValue ν m (declareVariable settings env name a m) := by
  rw [declareVariable_apply]
  refine ⟨ν, ?_, trivial⟩
  rw [Machine.heap_noted]
  exact hk.define hroots hlt (ha.mono hroots (Heap.extends_define ..) fun _ _ => rfl)
    hordinary.2 hnames

/-- The function that a declaration makes is known once it is declared. -/
theorem declareFunction_ends {env : EnvId} {name : Name} {parameters : List Name}
    {body : List (Stmt Binding)} (hlt : env.index < m.heap.environments.size)
    (hordinary : name.Ordinary) (hnames : env ≠ .globals → name.text ∈ ν env)
    (hcode : ∀ m', declareFunction settings env (.mk name parameters body) m = .ok () m' →
      Closure.Known settings roots ν m'.heap
        ⟨some name.text, parameters, body, env, false⟩) :
    Ends settings roots runs AnyValue ν m
      (declareFunction settings env (.mk name parameters body) m) := by
  have hc := hcode _ (declareFunction_apply settings env name parameters body m)
  have hid := hk.takeId hroots
  rw [Machine.heap_noted] at hc
  rw [declareFunction_apply]
  refine ⟨ν, ?_, trivial⟩
  rw [Machine.heap_noted]
  exact hid.trans (hid.known.define hroots hlt hc hordinary.2 hnames)

theorem openClass_later (env : EnvId) {parent : Option Class}
    (hp : ∀ c, parent = some c → c.Known settings roots ν m.heap) :
    Later settings roots ν m.heap (ν.openClass m.heap parent) (m.openClass env parent).heap := by
  cases parent with
  | none => exact .refl hk
  | some c =>
    have hsingle : ∀ x a, (Slots.single "super" (Value.classRef c)).get? x = some a →
        x = "super" ∧ a = .classRef c := by
      intro x a hx
      have hc : (Slots.single "super" (Value.classRef c)).contains x = true := by
        simp [Slots.contains, hx]
      obtain rfl := (Slots.contains_single ..).mp hc
      exact ⟨rfl, (Option.some.inj hx).symm⟩
    refine hk.pushEnv hroots (fun x a hx => ?_) (fun a hx => ⟨c, (hsingle _ a hx).2⟩) fun x hx => ?_
    · rw [(hsingle x a hx).2]
      exact hp c rfl
    · rw [(Slots.contains_single ..).mp hx]
      exact List.mem_cons_self ..

end

section

variable {v : Visit} {w : Site} {ρ : Display} (hroots : ∀ r ∈ roots, r.Accepted)
  (hb : settings.lookup = .bound) (hk : v.heap.Known settings roots ν)
  (hv : Reached settings runs v) (hl : Lockstep settings roots v w ρ)
include hroots hb hk hv hl

theorem superclassOf_ends {name : Name} {parent : Option (Reference Binding)}
    {methods : List (Function Binding)} (hr : w.resolved = .stmt (.classDecl name parent methods)) :
    Ends settings roots runs
      (fun ν' m' parent => ∀ c, parent = some c → c.Known settings roots ν' m'.heap) ν v.machine
      (superclassOf settings ρ.env parent v.machine) := by
  cases parent with
  | none => exact .ok hk nofun
  | some parent =>
    refine .bind (read_ends hb hk hroots hv hl (by rw [hr]; rfl)) fun a ν' m' hl' ha => ?_
    cases a with
    | classRef c => exact .ok hl'.known fun c' hc => Option.some.inj hc ▸ ha
    | _ => exact .failure hl'.known _

omit hb hk hv in
theorem known_classMethods (hn : ρ.map ν = w.names) {name : Name}
    {parent : Option (Reference Binding)} {methods : List (Function Binding)}
    (hr : w.resolved = .stmt (.classDecl name parent methods)) {found : Option Class}
    (hsome : found.isSome = parent.isSome) {a : v.code.Result}
    (ha : v.run settings = .ok a m) :
    ∀ x code,
      (classMethods (methodEnv (v.machine.define ρ.env name.text .nil) ρ.env found) methods
        ∅).get? x = some code →
      code.KnownMethod settings roots
        (ν.openClass (v.machine.define ρ.env name.text .nil).heap found) m.heap := by
  intro x code hx
  obtain ⟨parent', methods', hnode, hsome', hmem⟩ := Site.method_of_classDecl hr
  obtain ⟨f, hfm, rfl⟩ := hmem _ x code hx
  have hnames := Site.names_of_mem_methods hnode hfm
  rw [hsome', ← hsome, ← hn] at hnames
  cases found with
  | none =>
    cases parent' with
    | none => exact ⟨m.heap, f, ρ, .plain hl hnode hfm ha, .refl _, hnames⟩
    | some p => exact absurd (hsome'.trans hsome.symm) (by simp)
  | some c =>
    cases parent' with
    | none => exact absurd (hsome'.trans hsome.symm) (by simp)
    | some p =>
      have hnext : (v.machine.define ρ.env name.text .nil).heap.nextEnv = v.heap.nextEnv := by
        simp [Heap.nextEnv]
      refine ⟨m.heap, f, v.heap.nextEnv :: ρ, ?_, .refl _, ?_⟩
      · rw [methodEnv, hnext]
        exact .derived hl hnode hfm ha
      · have hlt : ∀ env ∈ ρ, env.index <
            (v.machine.define ρ.env name.text .nil).heap.environments.size := by
          simpa using (hl.fits hroots).chain.mem_lt_size
        have hkeeps : ∀ env ∈ ρ, ν.push (v.machine.define ρ.env name.text .nil).heap ["super"] env =
            ν env := fun env he => ν.push_of_lt (hlt env he) _
        rw [hnames, Naming.openClass, List.map_cons, List.map_congr_left hkeeps, ← hnext,
          Naming.push_nextEnv]
        rfl

omit hb hk hv hroots in
/-- The class that a declaration makes comes after its superclass. -/
theorem declared_of_run {ν' : Naming} {name : Name} {parent : Option (Reference Binding)}
    {methods : List (Function Binding)}
    (hc : v.code = .node ρ.env (.stmt (.classDecl name parent methods))) {found : Option Class}
    (hs : superclassOf settings ρ.env parent v.machine = .ok found v.machine)
    (hfound : ∀ c, found = some c → c.Known settings roots ν' v.heap) {a : v.code.Result}
    (ha : v.run settings = .ok a m) {h : Heap} (hid : v.heap.nextId < h.nextId) :
    Class.Declared settings roots h (.mk v.heap.nextId name.text found
      (classMethods (methodEnv v.machine ρ.env found) methods ∅)) where
  visit := ⟨v, ρ.env, methods, hl.reached, Visit.declares_of_run hc hs ha⟩
  superclass := fun c hc => (hfound c hc).declared.past
  past := hid

/-- The class that a declaration makes is known once it is declared. -/
theorem declareClass_ends (hn : ρ.map ν = w.names) {name : Name}
    {parent : Option (Reference Binding)} {methods : List (Function Binding)}
    (hr : w.resolved = .stmt (.classDecl name parent methods))
    (hordinary : name.Ordinary) (hnames : ρ.env ≠ .globals → name.text ∈ ν ρ.env)
    (hrun : ∀ m', declareClass settings ρ.env name parent methods v.machine = .ok () m' →
      ∃ a, v.run settings = .ok a m') :
    Ends settings roots runs AnyValue ν v.machine
      (declareClass settings ρ.env name parent methods v.machine) := by
  have hf := hl.fits hroots
  have hsuper := superclassOf_ends hroots hb hk hv hl hr
  cases hs : superclassOf settings ρ.env parent v.machine with
  | error e m' =>
    rw [hs] at hsuper
    unfold declareClass
    rw [bind_apply, hs]
    exact hsuper
  | ok found m' =>
    obtain ⟨rfl, hsome, -⟩ := superclassOf_eq_ok hs
    rw [hs] at hsuper
    obtain ⟨ν', hl', hfound⟩ := hsuper
    have hlt := hf.chain.lt_size
    have hcleared : Later settings roots ν v.heap ν
        (v.machine.define ρ.env name.text .nil).heap :=
      hk.define hroots hlt trivial hordinary.2 hnames
    -- The superclass was read before the name of the class was set.
    have hparent : ∀ c, found = some c →
        c.Known settings roots ν (v.machine.define ρ.env name.text .nil).heap := fun c hc =>
      (hfound c hc).mono hroots hcleared.toExtends fun env hlt => (hl'.keeps env hlt).symm
    have hopened := openClass_later hroots hcleared.known ρ.env hparent
    have hid := hopened.known.takeId hroots
    have hlater := (hcleared.trans hopened).trans hid
    rw [declareClass_apply hs]
    obtain ⟨a, ha⟩ := hrun _ (declareClass_apply hs)
    have hmethods := known_classMethods hroots hl hn hr hsome ha
    have hextends := hid.toExtends.trans (Heap.extends_define _ ρ.env name.text (.classRef (.mk
      ((v.machine.define ρ.env name.text .nil).openClass ρ.env found).heap.nextId name.text found
      (classMethods (methodEnv (v.machine.define ρ.env name.text .nil) ρ.env found) methods ∅))))
    refine ⟨ν.openClass (v.machine.define ρ.env name.text .nil).heap found, ?_, trivial⟩
    rw [classMachine, Machine.heap_noted] at hmethods ⊢
    have hnext : ((v.machine.define ρ.env name.text .nil).openClass ρ.env found).heap.nextId =
        v.heap.nextId := nextId_openClass ..
    have hcode : v.code = .node ρ.env (.stmt (.classDecl name parent methods)) := by
      rw [hf.code, hr]
    refine hlater.trans (hid.known.define hroots (Nat.lt_of_lt_of_le hlt hlater.grows.size)
      (Class.Known.mk ?_ hmethods fun c hc => ?_) hordinary.2 fun hne => ?_)
    · rw [hnext, methodEnv_define]
      exact declared_of_run hl hcode hs
        (fun c hc => (hfound c hc).mono hroots (.refl _) fun env hlt => (hl'.keeps env hlt).symm)
        ha (by simp [Heap.takeId, Heap.define, hnext])
    · exact (hparent c hc).mono hroots (hopened.toExtends.trans hextends) hopened.keeps
    · rw [hlater.keeps _ hlt]
      exact hnames hne

end

end ClassScript
