import ClassScript.Proofs.Evaluation.Frame
import ClassScript.Proofs.Evaluation.Transfer
import ClassScript.Proofs.Heap.Receiver
import ClassScript.Proofs.Scope.Descent
import ClassScript.Proofs.Session.Hierarchy

/-!
# Receivers in sessions

A method is bound to an object by reading a property of the object, by `super`, or by making
an object that has an initializer (`MethodBound`).  Its code then runs in calls of the bound
function, and so do the functions made there when they are called, at any depth and at any
time (`RunsIn`).  In all of them, the closest environment with `this` is the one that was made
when the method was bound (`RunsIn.receiver`).

Resolution gives `this` the distance to that environment, and `super` the distance to the one
around it, in which the class was declared (`Fits.receiver`).  No step sets either of the two
names (`History.keeps`).

`History.receivers` puts this together.  On given programs a bound method is found by reading
the property (`MethodBound.of_methodCall?`), and the runs of its code by descents that stay in
it (`RunsIn.descend`).
-/

namespace ClassScript

open Resolution Run

/-- The function that a code makes, which is no method. -/
def Code.makes : Code → Option Closure
  | .node env (.expr (.lambda _ parameters body)) => some ⟨none, parameters, body, env, false⟩
  | .node env (.stmt (.functionDecl f)) =>
      some ⟨some f.name.text, f.parameters, f.body, env, false⟩
  | _ => none

section

variable (settings : Settings) (s : Session) (roots : List Root)

/-- The function is the method, bound to the object. -/
inductive MethodBound (bound method : Closure) (object : Value) : Prop where
  /-- A property of the object was read, and it is no field. -/
  | property {n depth id : Nat} {env : EnvId} {e : Expr Binding} {property : Name}
      {m m₁ m₂ : Machine} {o : ObjectId} {definition : Class} :
      Reached settings roots ⟨n + 1, depth, .node env (.expr (.get e property)), m⟩ →
      evaluate settings n depth env e m = .ok (.object o definition) m₁ →
      object = .object o definition → m₁.heap.field? o property.text = none →
      definition.findMethod? property.text = some method →
      evaluate settings (n + 1) depth env (.get e property) m = .ok (.function id bound) m₂ →
      MethodBound bound method object
  /-- The method was read by `super`, where the object is `this`. -/
  | super {n depth id line d : Nat} {env : EnvId} {name : Name} {m m' : Machine}
      {parent : Class} :
      Reached settings roots ⟨n + 1, depth, .node env (.expr (.super line name (.local d))), m⟩ →
      readAt env d "super" m = .ok (.classRef parent) m →
      readAt env ((d : Int) - 1) "this" m = .ok object m →
      parent.findMethod? name.text = some method →
      evaluate settings (n + 1) depth env (.super line name (.local d)) m =
        .ok (.function id bound) m' →
      MethodBound bound method object
  /-- The object was made, and the method is its initializer. -/
  | construction {fuel depth i : Nat} {definition : Class} {values arguments : List Value}
      {m : Machine} {u : Visit} :
      Reached settings roots ⟨fuel, depth, .invoke (.classRef definition) values, m⟩ →
      object = .object m.heap.nextObject definition →
      definition.findMethod? initializerName = some method →
      Visit.Starts settings i ⟨fuel, depth, .invoke (.classRef definition) values, m⟩ u →
      u.code = .closure bound arguments → MethodBound bound method object

/-- The visit runs code of the function, or of a function nested in it that is no method of
another class. -/
inductive RunsIn (bound : Closure) : Visit → Prop where
  /-- The function is called. -/
  | call {i : Nat} {v u : Visit} {values : List Value} : Reached settings roots v →
      v.code = .closure bound values → v.Starts settings i u → RunsIn bound u
  | node {i : Nat} {v u : Visit} : RunsIn bound v → v.Starts settings i u → u.code.IsNode →
      RunsIn bound u
  /-- A function that was made there is called. -/
  | nested {i : Nat} {v u u' : Visit} {f : Closure} {values : List Value} : RunsIn bound v →
      v.code.makes = some f → Reached settings roots u → u.code = .closure f values →
      u.Starts settings i u' → RunsIn bound u'

/-- What comes of `super` with the method name, if the search starts at the class. -/
inductive SuperRead (start : Class) (name : Name) (object : Value) (m : Machine) :
    EStateM.Result Abort Machine Value → Prop where
  | method {found bound : Closure} {id : Nat} {m' : Machine} :
      start.findMethod? name.text = some found → bound.Binds found object m'.heap →
      SuperRead start name object m (.ok (.function id bound) m')
  | undefined {f : Failure} : start.findMethod? name.text = none →
      f.error.message = "Undefined property '" ++ name.text ++ "'." → f.line = name.line →
      SuperRead start name object m (.error (.failure f) m)

/-- What `this` and `super` stand for is fixed when a class is declared and when its method is
bound. -/
structure Receivers : Prop where
  /-- In a bound method, and in the functions nested in it, `this` is the object. -/
  this : ∀ {bound method : Closure} {object : Value} {n depth line : Nat} {env : EnvId}
    {b : Binding} {m : Machine}, MethodBound settings roots bound method object →
    RunsIn settings roots bound ⟨n + 1, depth, .node env (.expr (.this line b)), m⟩ →
    evaluate settings (n + 1) depth env (.this line b) m = .ok object m
  /-- In a method of a class, and in the functions nested in it, `super` starts at the
  superclass that the declaration of the class had found, and binds to the same object. -/
  super : ∀ {bound method : Closure} {object : Value} {v : Visit} {outer : EnvId}
    {methods : List (Function Binding)} {c : Class} {x : String} {n depth line : Nat}
    {env : EnvId} {name : Name} {b : Binding} {m : Machine},
    MethodBound settings roots bound method object → Reached settings roots v →
    v.Declares settings outer methods c → c.methods.get? x = some method →
    RunsIn settings roots bound ⟨n + 1, depth, .node env (.expr (.super line name b)), m⟩ →
    ∃ parent, c.superclass = some parent ∧
      SuperRead parent name object m (evaluate settings (n + 1) depth env (.super line name b) m)
  /-- Each method that is bound was declared with some class. -/
  written : ∀ {bound method : Closure} {object : Value},
    MethodBound settings roots bound method object →
    ∃ (v : Visit) (env : EnvId) (methods : List (Function Binding)) (c : Class) (x : String),
      Reached settings roots v ∧ v.Declares settings env methods c ∧
        c.methods.get? x = some method
  /-- Whenever an environment is there, it has the same `this` and `super`, or none. -/
  fixed : ∀ {h h' : Heap} {env : EnvId} {x : String}, Moment settings roots s h →
    Moment settings roots s h' → env.index < h.environments.size →
    env.index < h'.environments.size → x = "this" ∨ x = "super" →
    (h'.slots env).get? x = (h.slots env).get? x

end

variable {settings : Settings} {s : Session} {roots : List Root} {u v v' : Visit} {i : Nat}
  {env : EnvId}

/-! ## Distances -/

/-- The receiver is found at the distance of `this`. -/
theorem Fits.receiver {ν : Naming} {w : Site} {ρ : Display} (hf : Fits v w ρ)
    (hk : v.heap.Known settings roots ν) (hn : ρ.map ν = w.names) {d : Nat}
    (hd : Nearest "this" w.scopes d) :
    ∃ receiver, ρ[d]? = some receiver ∧ v.heap.Receiver ρ.env receiver := by
  obtain ⟨receiver, he, hx⟩ := hd.has hf
  refine ⟨receiver, he, hf.chain.receiver_of_getElem? he hx fun j hj other ho hother => ?_⟩
  -- An environment that has `this` stands for a scope that has it.
  have hne := hf.chain.ne_globals other (List.mem_of_getElem? ho)
  have hnames : w.names[j]? = some (ν other) := by
    rw [← hn, List.getElem?_map, ho]
    rfl
  obtain ⟨hlt, -, hfirst⟩ := List.findIdx?_eq_some_iff_getElem.mp hd.1
  have hscope : w.scopes[j]? = some w.scopes[j] := List.getElem?_eq_getElem (Nat.lt_trans hj hlt)
  have hcovers := Covers.at hf.sound.framed.covers hscope hnames
  exact hfirst j hj (hcovers.special _ (hk.named other "this" hne hother) (.inl rfl))

/-! ## No step sets `this` or `super` -/

theorem Code.Obeys.keeps {code : Code}
    (h : ∀ x ∈ code.assigned, x ≠ "this" ∧ x ≠ "super") :
    code.Obeys fun m m' => m.heap.Keeps m'.heap :=
  ⟨fun x hx m env value => m.heap.keeps_define env value (h x hx),
    fun _ _ _ _ _ => Heap.keeps_of_environments_eq rfl⟩

theorem Heap.keeps_quietLaw : QuietLaw fun m m' => m.heap.Keeps m'.heap where
  refl m := .refl m.heap
  trans h12 h23 := h12.trans h23
  event m _ _ := .refl m.heap
  clock m := .refl m.heap
  pushEnv m parent slots := m.heap.keeps_pushEnv parent slots
  pushObject _ := Heap.keeps_of_environments_eq rfl
  takeId _ := Heap.keeps_of_environments_eq rfl

/-- Parameters do not give `this` or `super` a value. -/
theorem Run.argumentSlots_special {parameters : List Name} {values : List Value} {x : String}
    (hp : ∀ p ∈ parameters, p.Ordinary) (hx : x = "this" ∨ x = "super") :
    (argumentSlots parameters values ∅).get? x = none := by
  rw [Option.eq_none_iff_forall_ne_some]
  intro a ha
  rcases argument_of_get? ha with ha | ⟨-, ha⟩
  · cases ha
  · obtain ⟨p, hmem, rfl⟩ := List.mem_map.mp ha
    exact hx.elim (hp p hmem).1 (hp p hmem).2

namespace History

variable (hb : settings.lookup = .bound) (hh : History settings s roots)
include hb hh

/-- The variables that are set have other names. -/
theorem ordinary_assigned (hv : Reached settings roots v) :
    ∀ x ∈ v.code.assigned, x ≠ "this" ∧ x ≠ "super" := by
  obtain ⟨ν, hν⟩ := hh.known hb hv
  have hcode := hν.code
  intro x hx
  obtain ⟨fuel, depth, code, m⟩ := v
  cases code with
  | node env n =>
    obtain ⟨w, ρ, hl, -⟩ := hcode
    have hf := hl.fits (hh.invariant hb).1
    have hnode : w.resolved = n := (Code.node.inj hf.code).2.symm
    cases n with
    | expr e =>
      cases e with
      | assign target value =>
        obtain rfl := List.mem_singleton.mp hx
        exact (hf.sound.assign hnode).2
      | _ => cases hx
    | stmt s =>
      obtain ⟨s', hn, hr⟩ := w.stmt_of_resolved hnode
      have hlegal := hf.sound.legal
      rw [hn] at hlegal
      refine Node.Legal.ordinary hlegal x ?_
      have hx' : x ∈ declaredNames [s] := hx
      rw [← hr, declaredNames_resolveStmt] at hx'
      exact hx'
    | _ => cases hx
  | _ => cases hx

theorem keeps : Lasting settings roots Heap.Keeps where
  toQuietLaw := Heap.keeps_quietLaw
  part := .step
  obeys hv := .keeps (hh.ordinary_assigned hb hv)

/-- Any two moments agree on `this` and `super`. -/
theorem agrees {h h' : Heap} (hm : Moment settings roots s h) (hm' : Moment settings roots s h') :
    h.Agrees h' :=
  (hm.ordered hh (hh.keeps hb) hm').elim (·.agrees) fun hk => hk.agrees.symm

/-- The environment of a node lies on a chain. -/
theorem chain {n : Node Binding} (hv : Reached settings roots v) (hc : v.code = .node env n) :
    ∃ ρ, v.heap.Chain env ρ := by
  obtain ⟨ν, hν⟩ := hh.known hb hv
  have hcode := hν.code
  rw [hc] at hcode
  obtain ⟨w, ρ, hl, -⟩ := hcode
  have hf := hl.fits (hh.invariant hb).1
  have henv := hf.code
  rw [hc] at henv
  cases henv
  exact ⟨ρ, hf.chain⟩

/-- So does that of a function that is called, and its parameters have ordinary names. -/
theorem chain_closure {f : Closure} {values : List Value} (hv : Reached settings roots v)
    (hc : v.code = .closure f values) :
    (∃ ρ, v.heap.Chain f.scope ρ) ∧ ∀ p ∈ f.parameters, p.Ordinary := by
  obtain ⟨ν, hν⟩ := hh.known hb hv
  have hcode := hν.code
  rw [hc] at hcode
  obtain ⟨⟨h₀, site, ρ, hmade, hg, -⟩, -, -⟩ := hcode
  have hf := Made.fits (hh.invariant hb).1 hmade
  obtain rfl := hf.code
  exact ⟨⟨ρ, hf.chain.mono hg⟩, hf.sound.ordinary⟩

/-- The environment of a node has no `this` or `super` of its own. -/
theorem plain {n : Node Binding} {x : String} (hv : Reached settings roots v)
    (hc : v.code = .node env n) (hx : x = "this" ∨ x = "super") :
    (v.heap.slots env).get? x = none := by
  induction hv generalizing env n with
  | @root r w w₁ w₂ m hr hcomes hp =>
    cases hc
    have hv : Reached settings roots (r.visit w₁ m) := .root hr hcomes hp
    have hm : Moment settings roots s m.heap := .visit hv (.inl rfl)
    have hinitial := (hm.lasting hh (hh.keeps hb)).1
    show (m.heap.slots .globals).get? x = none
    rw [hinitial.special .globals x (by decide) hx]
    rcases hx with rfl | rfl <;> rfl
  | @step i v u hv hs ih =>
    have hu : Reached settings roots u := .step hv hs
    obtain ⟨fuel, depth, code, m⟩ := v
    have hcalls := hs.calls
    rw [hc] at hcalls
    cases code with
    | node outer n' =>
      cases hcalls with
      | part hpart =>
        obtain ⟨ρ, hchain⟩ := hh.chain hb hv rfl
        have hkeeps : m.heap.Keeps u.heap := ((hh.keeps hb).starts hv hs).2
        rw [hkeeps.special env x hchain.lt_size hx]
        exact ih rfl
      | block _ _ body =>
        obtain ⟨hcode, hm⟩ := hs.block rfl
        rw [hc] at hcode
        cases hcode
        rw [Visit.heap, hm]
        show (Heap.slots (Heap.pushEnv _ _ _) _).get? x = none
        rw [Heap.slots_pushEnv_self]
        rfl
    | invoke callee values => cases hcalls
    | closure f values =>
      obtain ⟨hcode, hm⟩ := hs.closure rfl
      rw [hc] at hcode
      cases hcode
      rw [Visit.heap, hm]
      show (Heap.slots (Heap.pushEnv _ _ _) _).get? x = none
      rw [Heap.slots_pushEnv_self]
      exact argumentSlots_special (hh.chain_closure hb hv rfl).2 hx

/-- A new environment of a node has the receiver of the one around it. -/
theorem receiver_of_new {n : Node Binding} {h : Heap} {scope receiver : EnvId}
    {slots : Slots Value} (hv : Reached settings roots v) (hc : v.code = .node h.nextEnv n)
    (hheap : v.heap = h.pushEnv (some scope) slots) (hr : v.heap.Receiver scope receiver) :
    v.heap.Receiver h.nextEnv receiver := by
  refine .outer ?_ ?_ hr
  · rw [Heap.Has, Slots.contains, hh.plain hb hv hc (.inl rfl)]
    exact Bool.false_ne_true
  · rw [hheap]
    exact Heap.parent?_pushEnv_self ..

/-- The body of a call has the receiver that the environment of the function has. -/
theorem receiver_of_call {f : Closure} {values : List Value} {h : Heap} {receiver : EnvId}
    (hu : Reached settings roots u) (hc : u.code = .closure f values)
    (hs : u.Starts settings i v) (hm : Moment settings roots s h)
    (hr : h.Receiver f.scope receiver) :
    ∃ env n, v.code = .node env n ∧ v.heap.Receiver env receiver := by
  have hv : Reached settings roots v := .step hu hs
  obtain ⟨⟨ρ, hchain⟩, -⟩ := hh.chain_closure hb hu hc
  obtain ⟨hcode, hmachine⟩ := hs.closure hc
  have hagrees := hh.agrees hb hm (.visit hv (.inl rfl))
  have hheap : v.heap = u.heap.pushEnv (some f.scope) (argumentSlots f.parameters values ∅) := by
    rw [Visit.heap, hmachine]
    rfl
  exact ⟨_, _, hcode, hh.receiver_of_new hb hv hcode hheap
    (hr.agrees hagrees (hchain.mono hs.grows))⟩

end History

/-! ## Bound methods -/

namespace MethodBound

variable {bound method : Closure} {object : Value}

/-- At some moment the function has an environment of its own for the object. -/
theorem binds (hm : MethodBound settings roots bound method object) :
    ∃ h, Moment settings roots s h ∧ bound.Binds method object h := by
  cases hm with
  | property hv he hobject hx hfound hr =>
    subst hobject
    have hget := evaluate_get_of_method he hx hfound
    exact ⟨_, Moment.last hv hr, binds_of_methodValue (hget ▸ hr)⟩
  | @super n depth id line d env name m m' parent hv hparent hthis hfound hr =>
    have hget : evaluate settings (n + 1) depth env (.super line name (.local d)) m =
        methodValue method object m := by
      simp only [evaluate]
      exact getSuper_of_method hparent hthis hfound
    exact ⟨_, Moment.last hv hr, binds_of_methodValue (hget ▸ hr)⟩
  | construction hv hobject hfound hs hc =>
    subst hobject
    exact ⟨_, .visit (.step hv hs) (.inl rfl), hs.construction rfl hfound hc⟩

/-- The method is one that a class declares. -/
theorem written (hb : settings.lookup = .bound) (hh : History settings s roots)
    (hm : MethodBound settings roots bound method object) :
    ∃ v env methods c x, Reached settings roots v ∧ Visit.Declares settings v env methods c ∧
      c.methods.get? x = some method := by
  have hfind : ∀ {ν : Naming} {h : Heap} {definition : Class} {x : String},
      definition.Known settings roots ν h → definition.findMethod? x = some method →
      ∃ v env methods c x, Reached settings roots v ∧ Visit.Declares settings v env methods c ∧
        c.methods.get? x = some method := by
    intro ν h definition x hk hfound
    rw [Class.findMethod?_eq_findSome?] at hfound
    obtain ⟨c, hc, hx⟩ := List.exists_of_findSome?_eq_some hfound
    obtain ⟨v, env, methods, hv, hd⟩ := (hk.of_mem_line hc).declared.visit
    exact ⟨v, env, methods, c, x, hv, hd, hx⟩
  cases hm with
  | property hv he _ _ hfound _ =>
    obtain ⟨ν, hk⟩ := hh.value_known hb (.step (i := 0) hv ⟨rfl, .here ..⟩) he
    exact hfind hk.2 hfound
  | @super n depth id line d env name m m' parent hv hparent _ hfound _ =>
    obtain ⟨ν, hk⟩ := hh.moment_known hb (.visit hv (.inl rfl))
    obtain ⟨outer, hslot⟩ := slot_of_readAt hparent
    exact hfind (hk.values _ _ _ hslot) hfound
  | construction hv _ hfound _ _ =>
    obtain ⟨ν, hk⟩ := hh.known hb hv
    exact hfind hk.code.1 hfound

end MethodBound

/-! ## The receiver of a bound method -/

section

variable {bound : Closure}

theorem RunsIn.reached (hr : RunsIn settings roots bound v) : Reached settings roots v := by
  induction hr with
  | call hv _ hs => exact .step hv hs
  | node _ hs _ ih => exact .step ih hs
  | nested _ _ hu _ hs _ => exact .step hu hs

theorem Code.makes_eq {code : Code} {f : Closure} (hm : code.makes = some f) :
    ∃ n, code = .node f.scope n := by
  unfold Code.makes at hm
  split at hm <;> cases hm <;> exact ⟨_, rfl⟩

/-- Wherever code of a bound method runs, the closest `this` is that of the method. -/
theorem RunsIn.receiver (hb : settings.lookup = .bound) (hh : History settings s roots)
    {h : Heap} (hm : Moment settings roots s h) (hx : h.Has bound.scope "this")
    (hr : RunsIn settings roots bound v) :
    ∃ env n, v.code = .node env n ∧ v.heap.Receiver env bound.scope := by
  induction hr with
  | call hv hc hs => exact hh.receiver_of_call hb hv hc hs hm (.here hx)
  | @node i v u hr hs hn ih =>
    obtain ⟨env, n, hc, hreceiver⟩ := ih
    have hv := hr.reached
    have hu : Reached settings roots u := .step hv hs
    have hagrees := hh.agrees hb (.visit hv (.inl rfl)) (.visit hu (.inl rfl))
    obtain ⟨env', n', hc'⟩ := hn.eq
    have hcalls := hs.calls
    rw [hc, hc'] at hcalls
    cases hcalls with
    | part _ =>
      obtain ⟨ρ, hchain⟩ := hh.chain hb hu hc'
      exact ⟨env, n', hc', hreceiver.agrees hagrees hchain⟩
    | block _ _ body =>
      obtain ⟨hcode, hmachine⟩ := hs.block hc
      obtain ⟨ρ, hchain⟩ := hh.chain hb hv hc
      have hheap : u.heap = v.heap.pushEnv (some env) ∅ := by
        rw [Visit.heap, hmachine]
        rfl
      exact ⟨_, _, hcode, hh.receiver_of_new hb hu hcode hheap
        (hreceiver.agrees hagrees (hchain.mono hs.grows))⟩
  | @nested i v u u' f values hr hmakes hu hc hs ih =>
    obtain ⟨env, n, hcode, hreceiver⟩ := ih
    obtain ⟨n', hcode'⟩ := Code.makes_eq hmakes
    rw [hcode] at hcode'
    cases hcode'
    exact hh.receiver_of_call hb hu hc hs (.visit hr.reached (.inl rfl)) hreceiver

end

/-! ## The scope of `super` -/

/-- A class with a superclass has an environment of its own, which holds it. -/
theorem Visit.Declares.super_slot {outer : EnvId} {methods : List (Function Binding)}
    {c parent : Class} (hd : v.Declares settings outer methods c)
    (hlt : outer.index < v.heap.environments.size) (hs : c.superclass = some parent) :
    ((v.lastHeap settings).slots v.heap.nextEnv).get? "super" = some (.classRef parent) := by
  obtain ⟨name, reference, hcode, hsuper, -⟩ := hd.code
  obtain ⟨a, m, hrun⟩ := hd.completes
  obtain ⟨found, hfound, hm⟩ := Visit.run_classDecl hcode hrun
  rw [hsuper, hs] at hfound
  obtain rfl : some parent = found := by injection hfound
  have hne : outer ≠ v.heap.nextEnv := by
    rintro rfl
    exact Nat.lt_irrefl _ hlt
  have hnext : v.heap.nextEnv = (v.heap.define outer name.text .nil).nextEnv := by
    simp [Heap.nextEnv]
  rw [Visit.lastHeap, hrun, hm]
  show ((classMachine settings outer name (some parent) methods v.machine).heap.slots _).get? _ = _
  rw [classMachine, Machine.heap_noted]
  show ((Heap.define _ outer name.text _).slots v.heap.nextEnv).get? "super" = _
  rw [Heap.slots_define_of_ne hne, hnext]
  show ((Heap.pushEnv (v.heap.define outer name.text .nil) _ _).slots _).get? "super" = _
  rw [Heap.slots_pushEnv_self]
  rfl

/-! ## Runs that are computed -/

section

variable {bound : Closure} {path : List Nat}

theorem RunsIn.isNode (hr : RunsIn settings roots bound v) : v.code.IsNode := by
  have hclosure : ∀ {i : Nat} {v u : Visit} {f : Closure} {values : List Value},
      v.code = .closure f values → v.Starts settings i u → u.code.IsNode := by
    intro i v u f values hc hs
    rw [(hs.closure hc).1]
    trivial
  cases hr with
  | call _ hc hs => exact hclosure hc hs
  | node _ _ hn => exact hn
  | nested _ _ _ hc hs => exact hclosure hc hs

/-- A descent through nodes stays in the code of a bound method. -/
theorem RunsIn.descend (hr : RunsIn settings roots bound v)
    (hpath : ∀ i ∈ path, i < 2) (h : u ∈ v.descend? settings path) :
    RunsIn settings roots bound u := by
  induction path generalizing v with
  | nil =>
    cases h
    exact hr
  | cons i path ih =>
    obtain ⟨v', hs, h'⟩ := Visit.descend?_cons h
    obtain ⟨env, n, hc⟩ := hr.isNode.eq
    -- Only the part 2 of a node may be a call.
    have hn : v'.code.IsNode := by
      have hcalls := hs.calls
      rw [hc] at hcalls
      cases hcode : v'.code with
      | node env' n' => trivial
      | invoke f values =>
        rw [hcode] at hcalls
        cases hcalls
        exact absurd (hpath 2 (List.mem_cons_self ..)) (Nat.lt_irrefl 2)
      | closure f values =>
        rw [hcode] at hcalls
        cases hcalls
    exact ih (.node hr hs hn) (fun j hj => hpath j (List.mem_cons_of_mem _ hj)) h'

/-- The object and the method, if a visit calls a method of an object. -/
def Visit.methodCall? (settings : Settings) : Visit → Option (Value × Closure)
  | ⟨n + 2, depth, .node env (.expr (.call (.get e property) _ _)), m⟩ =>
    match evaluate settings n depth env e m with
    | .ok (.object o definition) m₁ =>
      if (m₁.heap.field? o property.text).isSome then none
      else (definition.findMethod? property.text).map fun method => (.object o definition, method)
    | _ => none
  | _ => none

/-- The call of a method binds it to the object and runs its body. -/
theorem MethodBound.of_methodCall? {object : Value} {method : Closure}
    (hv : Reached settings roots v) (h : (object, method) ∈ v.methodCall? settings)
    (hpath : ∀ i ∈ path, i < 2) (hu : u ∈ v.descend? settings (2 :: 0 :: 0 :: path)) :
    ∃ bound, MethodBound settings roots bound method object ∧ RunsIn settings roots bound u := by
  obtain ⟨call, hcall, h₁⟩ := Visit.descend?_cons hu
  obtain ⟨code, hcode, h₂⟩ := Visit.descend?_cons h₁
  obtain ⟨body, hbody, h₃⟩ := Visit.descend?_cons h₂
  unfold Visit.methodCall? at h
  split at h
  · rename_i n depth env e property line arguments m
    split at h
    · rename_i o definition m₁ he
      split at h
      · cases h
      · rename_i hfield
        obtain ⟨found, hfound, heq⟩ := Option.map_eq_some_iff.mp h
        cases heq
        rw [Option.not_isSome_iff_eq_none] at hfield
        obtain ⟨id, bound, m₂, hvalue, -⟩ := methodValue_binds method (.object o definition) m₁
        have hget := (evaluate_get_of_method he hfield hfound).trans hvalue
        obtain ⟨values, hclosure⟩ := hcall.called rfl rfl hget hcode
        have hread : Reached settings roots
            ⟨n + 1, depth, .node env (.expr (.get e property)), m⟩ :=
          .step (i := 0) hv ⟨rfl, .here ..⟩
        have hruns : RunsIn settings roots bound body :=
          .call (.step (.step hv hcall) hcode) hclosure hbody
        exact ⟨bound, .property hread he rfl hfield hfound hget, hruns.descend hpath h₃⟩
    · cases h
  · cases h

/-- Whether a code calls a function where the function is written. -/
def Code.callsLambda : Code → Bool
  | .node _ (.expr (.call (.grouping (.lambda _ _ _)) _ _)) => true
  | _ => false

/-- The body of a function that is called where it is written is code of the bound method,
too. -/
theorem RunsIn.lambda (hr : RunsIn settings roots bound v) (hc : v.code.callsLambda = true)
    (hpath : ∀ i ∈ path, i < 2) (hu : u ∈ v.descend? settings (2 :: 0 :: 0 :: path)) :
    RunsIn settings roots bound u := by
  obtain ⟨call, hcall, h₁⟩ := Visit.descend?_cons hu
  obtain ⟨code, hcode, h₂⟩ := Visit.descend?_cons h₁
  obtain ⟨start, hstart, h₃⟩ := Visit.descend?_cons h₂
  refine RunsIn.descend ?_ hpath h₃
  unfold Code.callsLambda at hc
  split at hc
  · rename_i env line parameters body line' arguments hv
    obtain ⟨fuel, depth, _, m⟩ := v
    subst hv
    obtain rfl : fuel = start.fuel + 3 := by
      have hfuel := hcall.1
      rw [hcode.1, hstart.1] at hfuel
      exact hfuel
    have hgrouping : RunsIn settings roots bound
        ⟨start.fuel + 2, depth, .node env (.expr (.grouping (.lambda line parameters body))), m⟩ :=
      .node (i := 0) hr ⟨rfl, .here ..⟩ trivial
    have hlambda : RunsIn settings roots bound
        ⟨start.fuel + 1, depth, .node env (.expr (.lambda line parameters body)), m⟩ :=
      .node (i := 0) hgrouping ⟨rfl, .here ..⟩ trivial
    have hvalue : evaluate settings (start.fuel + 2) depth env
        (.grouping (.lambda line parameters body)) m =
          newFunction ⟨none, parameters, body, env, false⟩ m := by
      simp only [evaluate]
    obtain ⟨values, hclosure⟩ := hcall.called rfl rfl hvalue hcode
    exact .nested hlambda rfl (.step (.step hr.reached hcall) hcode) hclosure hstart
  · cases hc

end

/-- Whether a visit evaluates `this`. -/
def Visit.readsThis : Visit → Bool
  | ⟨_ + 1, _, .node _ (.expr (.this _ _)), _⟩ => true
  | _ => false

theorem Visit.eq_of_readsThis (h : v.readsThis = true) :
    ∃ n depth env line b m, v = ⟨n + 1, depth, .node env (.expr (.this line b)), m⟩ := by
  unfold readsThis at h
  split at h
  · exact ⟨_, _, _, _, _, _, rfl⟩
  · cases h

/-- Whether a visit evaluates `super`. -/
def Visit.readsSuper : Visit → Bool
  | ⟨_ + 1, _, .node _ (.expr (.super _ _ _)), _⟩ => true
  | _ => false

theorem Visit.eq_of_readsSuper (h : v.readsSuper = true) :
    ∃ n depth env line name b m,
      v = ⟨n + 1, depth, .node env (.expr (.super line name b)), m⟩ := by
  unfold readsSuper at h
  split at h
  · exact ⟨_, _, _, _, _, _, _, rfl⟩
  · cases h

/-! ## Every history -/

namespace History

variable (hb : settings.lookup = .bound) (hh : History settings s roots)
  {bound method : Closure} {object : Value}
include hb hh

/-- The environment of a bound method holds the object at every moment at which it is
there. -/
theorem bound_at (hm : MethodBound settings roots bound method object) {h : Heap}
    (hh' : Moment settings roots s h) (hlt : bound.scope.index < h.environments.size) :
    (h.slots bound.scope).get? "this" = some object ∧
      h.parent? bound.scope = some method.scope := by
  obtain ⟨h₀, hm₀, hbinds⟩ := hm.binds (s := s)
  have hlt₀ := Heap.lt_size_of_parent? hbinds.parent
  have hagrees := hh.agrees hb hm₀ hh'
  rw [hagrees.special _ _ hlt₀ hlt (.inl rfl), hagrees.parent _ hlt₀ hlt, hbinds.slots]
  exact ⟨rfl, hbinds.parent⟩

/-- At the distance of `this`, code of a bound method finds the object. -/
theorem receiver_at (hm : MethodBound settings roots bound method object)
    (hr : RunsIn settings roots bound v) {w : Site} {ρ : Display} {ν : Naming}
    (hf : Fits v w ρ) (hk : v.heap.Known settings roots ν) (hn : ρ.map ν = w.names) {d : Nat}
    (hd : Nearest "this" w.scopes d) :
    ρ[d]? = some bound.scope ∧ (v.heap.slots bound.scope).get? "this" = some object ∧
      v.heap.parent? bound.scope = some method.scope := by
  obtain ⟨h₀, hm₀, hbinds⟩ := hm.binds (s := s)
  have hx : h₀.Has bound.scope "this" := by
    rw [Heap.Has, hbinds.slots]
    rfl
  obtain ⟨env, n, hc, hreceiver⟩ := hr.receiver hb hh hm₀ hx
  obtain ⟨receiver, he, hfound⟩ := hf.receiver hk hn hd
  rw [hf.code] at hc
  cases hc
  obtain rfl := hfound.unique hreceiver
  have hlt := hf.chain.mem_lt_size _ (List.mem_of_getElem? he)
  exact ⟨he, hh.bound_at hb hm (.visit hr.reached (.inl rfl)) hlt⟩

theorem evaluate_this (hm : MethodBound settings roots bound method object) {n depth line : Nat}
    {b : Binding} {m : Machine}
    (hr : RunsIn settings roots bound ⟨n + 1, depth, .node env (.expr (.this line b)), m⟩) :
    evaluate settings (n + 1) depth env (.this line b) m = .ok object m := by
  obtain ⟨ν, hν⟩ := hh.known hb hr.reached
  obtain ⟨w, ρ, hl, hn⟩ := hν.code
  have hf := hl.fits (hh.invariant hb).1
  obtain ⟨rfl, hnode⟩ := Code.node.inj hf.code
  obtain ⟨d, rfl, hd⟩ := hf.sound.this hnode.symm
  obtain ⟨he, hslot, -⟩ := hh.receiver_at hb hm hr hf hν.heap hn hd
  simp only [evaluate, Run.read, hb]
  exact readAt_of_slot hf.chain he hslot

/-- The environment around a bound method has a `super` only if its class has a superclass,
and then it is that one. -/
theorem super_at {outer : EnvId} {methods : List (Function Binding)} {c : Class} {x : String}
    (hv : Reached settings roots v) (hd : v.Declares settings outer methods c)
    (hx : c.methods.get? x = some method) {h : Heap} (hh' : Moment settings roots s h)
    (hsuper : h.Has method.scope "super") :
    ∃ parent, c.superclass = some parent ∧
      (h.slots method.scope).get? "super" = some (.classRef parent) := by
  obtain ⟨name, reference, hcode, -, -⟩ := hd.code
  obtain ⟨a, m, hrun⟩ := hd.completes
  obtain ⟨ρ, hchain⟩ := hh.chain hb hv hcode
  have hscope : method.scope = methodEnv v.machine outer c.superclass := by
    rw [hd.methods] at hx
    exact scope_of_classMethods methods ∅ (fun _ _ hy => by cases hy) hx
  have hlt := Heap.lt_size_of_has hsuper
  cases hs : c.superclass with
  | none =>
    rw [hs] at hscope
    obtain rfl : method.scope = outer := hscope
    have hagrees := hh.agrees hb (.visit hv (.inl rfl)) hh'
    rw [Heap.Has, Slots.contains, hagrees.special _ _ hchain.lt_size hlt (.inr rfl),
      hh.plain hb hv hcode (.inr rfl)] at hsuper
    cases hsuper
  | some parent =>
    rw [hs] at hscope
    have hslot := hd.super_slot hchain.lt_size hs
    have hscope' : method.scope = v.heap.nextEnv := hscope
    rw [← hscope'] at hslot
    have hagrees := hh.agrees hb (.visit hv (.inr rfl)) hh'
    have hlt' : method.scope.index < (v.lastHeap settings).environments.size :=
      Heap.lt_size_of_has (by rw [Heap.Has, Slots.contains, hslot]; rfl)
    exact ⟨parent, rfl, (hagrees.special _ _ hlt' hlt (.inr rfl)).trans hslot⟩

/-- Code of a bound method finds the superclass of its class, and the object. -/
theorem reads_super (hm : MethodBound settings roots bound method object) {outer : EnvId}
    {methods : List (Function Binding)} {c : Class} {x : String} {n depth line : Nat}
    {name : Name} {b : Binding} {m : Machine} (hv : Reached settings roots v)
    (hd : v.Declares settings outer methods c) (hx : c.methods.get? x = some method)
    (hr : RunsIn settings roots bound ⟨n, depth, .node env (.expr (.super line name b)), m⟩) :
    ∃ (d : Nat) (parent : Class), b = .local d ∧ c.superclass = some parent ∧
      readAt env d "super" m = .ok (.classRef parent) m ∧
      readAt env ((d : Int) - 1) "this" m = .ok object m := by
  obtain ⟨ν, hν⟩ := hh.known hb hr.reached
  obtain ⟨w, ρ, hl, hn⟩ := hν.code
  have hf := hl.fits (hh.invariant hb).1
  obtain ⟨rfl, hnode⟩ := Code.node.inj hf.code
  obtain ⟨e, rfl, hthis, hsuper⟩ := hf.sound.super hnode.symm
  obtain ⟨he, hslot, hparent⟩ := hh.receiver_at hb hm hr hf hν.heap hn hthis
  -- The scope around the receiver is the one in which the method was declared.
  obtain ⟨scope, hscope, hhas⟩ := hsuper.has hf
  have hmethod := hf.chain.parent?_of_getElem? he hscope
  rw [hparent] at hmethod
  cases hmethod
  obtain ⟨parent, hsuperclass, hclass⟩ :=
    hh.super_at hb hv hd hx (.visit hr.reached (.inl rfl)) hhas
  refine ⟨e + 1, parent, rfl, hsuperclass, readAt_of_slot hf.chain hscope hclass, ?_⟩
  have hdistance : ((e + 1 : Nat) : Int) - 1 = (e : Int) := by omega
  rw [hdistance]
  exact readAt_of_slot hf.chain he hslot

theorem evaluate_super (hm : MethodBound settings roots bound method object) {outer : EnvId}
    {methods : List (Function Binding)} {c : Class} {x : String} {n depth line : Nat}
    {name : Name} {b : Binding} {m : Machine} (hv : Reached settings roots v)
    (hd : v.Declares settings outer methods c) (hx : c.methods.get? x = some method)
    (hr : RunsIn settings roots bound ⟨n + 1, depth, .node env (.expr (.super line name b)), m⟩) :
    ∃ parent, c.superclass = some parent ∧
      SuperRead parent name object m
        (evaluate settings (n + 1) depth env (.super line name b) m) := by
  obtain ⟨d, parent, rfl, hsuperclass, hsuper, hthis⟩ := hh.reads_super hb hm hv hd hx hr
  refine ⟨parent, hsuperclass, ?_⟩
  simp only [evaluate]
  cases hfound : parent.findMethod? name.text with
  | some found =>
    obtain ⟨id, bound', m', hvalue, hbinds⟩ := methodValue_binds found object m
    rw [getSuper_of_method hsuper hthis hfound, hvalue]
    exact .method hfound hbinds
  | none =>
    rw [getSuper_of_none hsuper hthis hfound]
    exact .undefined hfound rfl rfl

/-- In every history, what `this` and `super` stand for is fixed. -/
theorem receivers : Receivers settings s roots where
  this hm hr := hh.evaluate_this hb hm hr
  super hm hv hd hx hr := hh.evaluate_super hb hm hv hd hx hr
  written hm := hm.written hb hh
  fixed hm hm' hlt hlt' hx := (hh.agrees hb hm hm').special _ _ hlt hlt' hx

omit hb hh in
/-- A method is called when the names of its class and of the superclass are gone, and a
function that is nested in it reads `super` and `this`. -/
theorem receivers_kept : ∃ (settings : Settings) (before : Session) (source : String)
    (roots : List Root) (bound method : Closure) (object : Value),
    settings.lookup = .bound ∧
    History settings (before.submit settings 40 source).session roots ∧
    (before.submit settings 40 source).events = [.printed "true"] ∧
    MethodBound settings roots bound method object ∧
    (∃ n depth env line b m,
      RunsIn settings roots bound ⟨n + 1, depth, .node env (.expr (.this line b)), m⟩ ∧
      evaluate settings (n + 1) depth env (.this line b) m = .ok object m) ∧
    (∃ (v : Visit) (outer : EnvId) (methods : List (Function Binding)) (c parent : Class)
      (x : String), v.Declares settings outer methods c ∧ c.methods.get? x = some method ∧
      c.superclass = some parent ∧ ∃ n depth env line name b m,
        RunsIn settings roots bound ⟨n + 1, depth, .node env (.expr (.super line name b)), m⟩ ∧
        SuperRead parent name object m
          (evaluate settings (n + 1) depth env (.super line name b) m)) ∧
    (∀ h, Moment settings roots (before.submit settings 40 source).session h →
      bound.scope.index < h.environments.size →
      (h.slots bound.scope).get? "this" = some object) := by
  let settings : Settings := .standard 0 fun _ => 0
  let declares := "class A \x7b k() \x7b return this; \x7d \x7d class B < A \x7b m() " ++
    "\x7b return (fun () \x7b return super.k() == this; \x7d)(); \x7d \x7d " ++
    "var b = B(); A = nil; B = nil;"
  let before := (Session.start.submit settings 40 declares).session
  let calls := "print b.m();"
  have hdeclares : Session.start.Accepts declares := by
    unfold Session.Accepts
    decide +kernel
  have hcalls : before.Accepts calls := by
    unfold Session.Accepts
    decide +kernel
  have hprinted : (before.submit settings 40 calls).events = [.printed "true"] := by
    decide +kernel
  let roots := [Session.start.root 40 declares, before.root 40 calls]
  have hh : History settings (before.submit settings 40 calls).session roots :=
    .run 40 (.run 40 .start hdeclares) hcalls
  -- From `b.m()` to the call in the body of `m`, and from there into the nested function.
  obtain ⟨call, hcall, ⟨object, method⟩, hmethod, inner, hinner, hlambda, this, hthis, super,
      hsuper, hreadsThis, hreadsSuper⟩ :
      ∃ call ∈ (before.root 40 calls).descend? settings [0],
        ∃ p ∈ call.methodCall? settings, ∃ inner ∈ call.descend? settings [2, 0, 0, 0, 0],
          inner.code.callsLambda = true ∧
            ∃ this ∈ inner.descend? settings [2, 0, 0, 0, 0, 1],
              ∃ super ∈ inner.descend? settings [2, 0, 0, 0, 0, 0, 0],
                this.readsThis = true ∧ super.readsSuper = true := by
    decide +kernel
  have hreached : Reached settings roots call :=
    .of_root (List.mem_cons_of_mem _ (List.mem_singleton_self _)) hcall
  obtain ⟨bound, hbound, hruns⟩ :=
    MethodBound.of_methodCall? hreached hmethod (by decide) hinner
  have hrunsThis := hruns.lambda hlambda (by decide) hthis
  have hrunsSuper := hruns.lambda hlambda (by decide) hsuper
  obtain ⟨n, depth, env, line, b, m, rfl⟩ := Visit.eq_of_readsThis hreadsThis
  obtain ⟨n', depth', env', line', name, b', m', rfl⟩ := Visit.eq_of_readsSuper hreadsSuper
  have hreceivers := hh.receivers rfl
  obtain ⟨v, outer, methods, c, x, hv, hdeclares, hx⟩ := hreceivers.written hbound
  obtain ⟨parent, hparent, hread⟩ := hreceivers.super hbound hv hdeclares hx hrunsSuper
  obtain ⟨h₀, hm₀, hbinds⟩ := hbound.binds (s := (before.submit settings 40 calls).session)
  have hlt₀ := Heap.lt_size_of_parent? hbinds.parent
  refine ⟨settings, before, calls, roots, bound, method, object, rfl, hh, hprinted, hbound,
    ⟨n, depth, env, line, b, m, hrunsThis, hreceivers.this hbound hrunsThis⟩,
    ⟨v, outer, methods, c, parent, x, hdeclares, hx, hparent, n', depth', env', line', name, b',
      m', hrunsSuper, hread⟩, fun h hm hlt => ?_⟩
  rw [hreceivers.fixed hm₀ hm hlt₀ hlt (.inl rfl), hbinds.slots]
  rfl

end History

end ClassScript
