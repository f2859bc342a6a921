import ClassScript.Proofs.Evaluation.Visit
import ClassScript.Proofs.Scope.Nesting

/-!
# Scopes and environments in lockstep

Resolution visits a node once, with a stack of scopes.  Evaluation visits it any
number of times, each time in an environment.  A *display* lists the environments
that stand for the open scopes: for each scope, innermost first, the environment
that its current activation made.

`Lockstep settings roots v w ρ` says that the evaluation `v` works on the node of
the site `w` and that `ρ` is its display.  A step into a part keeps the display.
A block puts its new environment in front of it.  A call puts its new environment
in front of the display with which the function was made, and that of a method
consists of the environment of `this`, that of `super` if there is one, and the
display of the class declaration.

`Lockstep.fits` is what comes of it: the environments of the display are those
that the walk to the parents passes, one for each scope, and a name that is ready
for use in a scope is set in the environment of that scope.
-/

namespace ClassScript

open Resolution Run

/-- The environments of the open scopes, the innermost one first. -/
abbrev Display := List EnvId

/-- The environment at hand. -/
def Display.env (ρ : Display) : EnvId := ρ.headD .globals

/-! ## Runs of programs -/

/-- The start of a program. -/
structure Root where
  /-- The fuel of the run. -/
  fuel : Nat
  /-- The program, before resolution. -/
  program : Program Unit
  /-- The machine at the start. -/
  machine : Machine

/-- The run of a program comes to the statements of a site. -/
inductive Root.Comes (settings : Settings) (r : Root) : Site → Machine → Prop where
  | start : Comes settings r (.top r.program) r.machine
  | next {w w₁ w₂ : Site} {m m' : Machine} {a : (Code.node .globals w₁.resolved).Result} :
      Comes settings r w m → w.parts = [w₁, w₂] →
      (Code.node .globals w₁.resolved).run settings r.fuel 0 m = .ok a m' →
      Comes settings r w₂ m'

/-- The visit of a statement of a program. -/
def Root.visit (r : Root) (w : Site) (m : Machine) : Visit :=
  ⟨r.fuel, 0, .node .globals w.resolved, m⟩

/-- The visits that the runs of the given programs come to. -/
inductive Reached (settings : Settings) (roots : List Root) : Visit → Prop where
  | root {r : Root} {w w₁ w₂ : Site} {m : Machine} : r ∈ roots → r.Comes settings w m →
      w.parts = [w₁, w₂] → Reached settings roots (r.visit w₁ m)
  | step {i : Nat} {v v' : Visit} : Reached settings roots v → v.Starts settings i v' →
      Reached settings roots v'

/-! ## Displays -/

mutual

/-- The visit works on the node of the site, in the environments of the display. -/
inductive Lockstep (settings : Settings) (roots : List Root) : Visit → Site → Display → Prop where
  | root {r : Root} {w w₁ w₂ : Site} {m : Machine} : r ∈ roots → r.Comes settings w m →
      w.parts = [w₁, w₂] → Lockstep settings roots (r.visit w₁ m) w₁ []
  | part {i : Nat} {v v' : Visit} {w w' : Site} {ρ : Display} : Lockstep settings roots v w ρ →
      v.Starts settings i v' → w.parts[i]? = some w' → Lockstep settings roots v' w' ρ
  | block {v v' : Visit} {w w' : Site} {ρ : Display} : Lockstep settings roots v w ρ →
      v.Starts settings 0 v' → w.block? = some w' →
      Lockstep settings roots v' w' (v.heap.nextEnv :: ρ)
  | call {v v' : Visit} {h : Heap} {code : Closure} {values : List Value} {f : FunctionSite}
      {ρ : Display} : Made settings roots h code f ρ → h.Grows v.heap →
      Reached settings roots v → v.code = .closure code values →
      values.length = code.parameters.length → v.Starts settings 0 v' →
      Lockstep settings roots v' f.entry (v.heap.nextEnv :: ρ)

/-- The function was made at the site, in the environments of the display, and
the heap was the given one then. -/
inductive Made (settings : Settings) (roots : List Root) :
    Heap → Closure → FunctionSite → Display → Prop where
  | function {v : Visit} {w : Site} {f : FunctionSite} {ρ : Display} {a : v.code.Result}
      {m : Machine} : Lockstep settings roots v w ρ → w.function? = some f →
      v.run settings = .ok a m → Made settings roots m.heap (f.code ρ.env) f ρ
  | bound {h : Heap} {code : Closure} {f : FunctionSite} {ρ : Display} {m : Machine}
      {object : Value} : Method settings roots h code f ρ → h.Grows m.heap →
      Made settings roots (m.pushEnv code.scope (Slots.single "this" object)).heap
        (f.code m.heap.nextEnv) f (m.heap.nextEnv :: ρ)

/-- The method was made at the site, in the environments of the display, and the
heap was the given one then.  It has no object yet. -/
inductive Method (settings : Settings) (roots : List Root) :
    Heap → Closure → FunctionSite → Display → Prop where
  | plain {v : Visit} {w : Site} {f : FunctionSite} {ρ : Display} {a : v.code.Result}
      {m : Machine} {name : Name} {methods : List (Function Unit)} :
      Lockstep settings roots v w ρ → w.node = .stmt (.classDecl name none methods) →
      f ∈ w.methods → v.run settings = .ok a m → Method settings roots m.heap (f.code ρ.env) f ρ
  | derived {v : Visit} {w : Site} {f : FunctionSite} {ρ : Display} {a : v.code.Result}
      {m : Machine} {name : Name} {parent : Reference Unit} {methods : List (Function Unit)} :
      Lockstep settings roots v w ρ → w.node = .stmt (.classDecl name (some parent) methods) →
      f ∈ w.methods → v.run settings = .ok a m →
      Method settings roots m.heap (f.code v.heap.nextEnv) f (v.heap.nextEnv :: ρ)

end

/-! ## What a display tells -/

/-- The names that are ready for use in a scope are set in the environment that
stands for it. -/
def Ready (h : Heap) (scope : StaticScope) (env : EnvId) : Prop :=
  ∀ x, scope.get? x = some true → h.Has env x

/-- What is ready stays ready while the heap grows. -/
theorem Ready.mono {h h' : Heap} (hg : h.Grows h') {scopes : List StaticScope} {ρ : Display}
    (hr : List.Forall₂ (Ready h) scopes ρ) : List.Forall₂ (Ready h') scopes ρ :=
  hr.imp fun _ env hs x hx => hg.has env x (hs x hx)

/-- What holds of a visit in lockstep with a site. -/
structure Fits (v : Visit) (w : Site) (ρ : Display) : Prop where
  sound : w.Sound
  code : v.code = .node ρ.env w.resolved
  chain : v.heap.Chain ρ.env ρ
  ready : List.Forall₂ (Ready v.heap) w.scopes ρ

/-- What holds of a function made at a site. -/
structure Made.Fits (h : Heap) (code : Closure) (f : FunctionSite) (ρ : Display) : Prop where
  sound : f.Sound
  code : code = f.code ρ.env
  chain : h.Chain ρ.env ρ
  ready : List.Forall₂ (Ready h) f.state.scopes ρ

/-- What holds of a method made at a site. -/
structure Method.Fits (h : Heap) (code : Closure) (f : FunctionSite) (ρ : Display) : Prop where
  sound : f.Sound
  code : code = f.code ρ.env
  chain : h.Chain ρ.env ρ
  ready : ∃ outer, f.state.scopes = Slots.single "this" true :: outer ∧
    List.Forall₂ (Ready h) outer ρ

/-- A program that was accepted and starts among the globals. -/
structure Root.Accepted (r : Root) : Prop where
  legal : legalStmts r.program
  accepted : (Resolution.ofProgram r.program).diagnostics = []
  outermost : r.machine.heap.Chain .globals []

variable {settings : Settings} {roots runs : List Root}

/-- What some of the programs come to, all of them together come to. -/
theorem Reached.mono (hsub : runs ⊆ roots) {v : Visit} (hv : Reached settings runs v) :
    Reached settings roots v := by
  induction hv with
  | root hr hc hp => exact .root (hsub hr) hc hp
  | step _ hs ih => exact .step ih hs

/-- Between the statements of a program, no scope is open. -/
theorem Root.Comes.outermost {r : Root} (hr : r.Accepted) {w : Site} {m : Machine}
    (hc : r.Comes settings w m) :
    Within r.program w ∧ w.names = [] ∧ m.heap.Chain .globals [] := by
  induction hc with
  | start => exact ⟨.refl, rfl, hr.outermost⟩
  | @next w w₁ w₂ m m' a _ hp hrun ih =>
    obtain ⟨hw, hn, hm⟩ := ih
    have hmem : w₂ ∈ w.parts := by simp [hp]
    have hpart := (Site.partOf_of_mem_parts (hw.sound hr.legal hr.accepted).legal hmem).1
    have hg : m.heap.Grows m'.heap :=
      Visit.grows_of_run (v := ⟨r.fuel, 0, .node .globals w₁.resolved, m⟩) hrun
    exact ⟨hw.part hmem, hpart.names.trans hn, hm.mono hg⟩

/-- Evaluation comes to every visit in lockstep. -/
theorem Lockstep.reached {v : Visit} {w : Site} {ρ : Display} :
    Lockstep settings roots v w ρ → Reached settings roots v
  | .root hr hc hp => .root hr hc hp
  | .part hl hs _ => .step hl.reached hs
  | .block hl hs _ => .step hl.reached hs
  | .call _ _ hv _ _ hs => .step hv hs

/-! ### Entering names -/

/-- A name may be made ready when it is set. -/
theorem Ready.enter {h : Heap} {scopes : List StaticScope} {ρ : Display}
    (hr : List.Forall₂ (Ready h) scopes ρ) {x : String} (hx : h.Has ρ.env x) :
    List.Forall₂ (Ready h) (enter x true scopes) ρ := by
  cases hr with
  | nil => exact .nil
  | @cons scope env outer rest hs ht =>
    refine .cons (fun y hy => ?_) ht
    by_cases he : x = y
    · subst he
      exact hx
    · rw [Slots.get?_set_of_ne _ _ he] at hy
      exact hs y hy

/-- A name that is declared anew is not ready until then. -/
theorem Ready.hide {h : Heap} {scopes : List StaticScope} {ρ : Display}
    (hr : List.Forall₂ (Ready h) scopes ρ) (x : String) :
    List.Forall₂ (Ready h) (Resolution.enter x false scopes) ρ := by
  cases hr with
  | nil => exact .nil
  | @cons scope env outer rest hs ht =>
    refine .cons (fun y hy => ?_) ht
    by_cases he : x = y
    · subst he
      simp at hy
    · rw [Slots.get?_set_of_ne _ _ he] at hy
      exact hs y hy

theorem Ready.enterAll {h : Heap} {ρ : Display} (xs : List String) {scopes : List StaticScope}
    (hr : List.Forall₂ (Ready h) scopes ρ) (hx : ∀ x ∈ xs, h.Has ρ.env x) :
    List.Forall₂ (Ready h) (enterAll xs scopes) ρ := by
  induction xs generalizing scopes with
  | nil => exact hr
  | cons x rest ih =>
    exact ih (Ready.enter hr (hx x (List.mem_cons_self ..)))
      fun y hy => hx y (List.mem_cons_of_mem _ hy)

/-- Nothing is ready in a new scope. -/
theorem Ready.push {h : Heap} {scopes : List StaticScope} {ρ : Display}
    (hr : List.Forall₂ (Ready h) scopes ρ) (env : EnvId) :
    List.Forall₂ (Ready h) (∅ :: scopes) (env :: ρ) :=
  .cons (fun _ hx => nomatch hx) hr

theorem Ready.single {h : Heap} {env : EnvId} {name : String} (hh : h.Has env name) :
    Ready h (Slots.single name true) env := by
  intro x hx
  have hc : (Slots.single name true).contains x = true := by simp [Slots.contains, hx]
  rw [← (Slots.contains_single ..).mp hc]
  exact hh

/-- Resolution keeps the name that a statement declares. -/
theorem declared_resolveStmt (context : Context) (s : Stmt Unit) (st : State) :
    (resolveStmt context s st).1.declared = s.declared := by
  cases s with
  | var name initializer => cases initializer <;> rfl
  | ifStmt condition thenBranch elifs elseBranch => cases elseBranch <;> rfl
  | functionDecl f => cases f; rfl
  | returnStmt line value => cases value <;> rfl
  | _ => rfl

theorem declaredNames_resolveStmt (context : Context) (s : Stmt Unit) (st : State) :
    declaredNames [(resolveStmt context s st).1] = declaredNames [s] := by
  unfold declaredNames
  simp only [List.filterMap_cons, declared_resolveStmt, List.filterMap_nil]

theorem declaredNames_resolveStmts (context : Context) (body : List (Stmt Unit)) (st : State) :
    declaredNames (resolveStmts context body st).1 = declaredNames body := by
  induction body generalizing st with
  | nil => rfl
  | cons s rest ih =>
    have hrest := ih (resolveStmt context s st).2
    show declaredNames ((resolveStmt context s st).1 :: _) = _
    rw [declaredNames_cons, declaredNames_cons s rest, declaredNames_resolveStmt, hrest]

/-! ### Steps -/

variable {v v' : Visit} {w w' : Site} {ρ : Display} {f : FunctionSite}

/-- A statement of a program fits its site. -/
theorem Fits.root {r : Root} (hr : r.Accepted) {w₁ w₂ : Site} {m : Machine}
    (hc : r.Comes settings w m) (hp : w.parts = [w₁, w₂]) : Fits (r.visit w₁ m) w₁ [] := by
  obtain ⟨hw, hn, hm⟩ := hc.outermost hr
  have hmem : w₁ ∈ w.parts := by simp [hp]
  have hs := Within.sound hr.legal hr.accepted (hw.part hmem)
  have hn' := (Site.partOf_of_mem_parts (hw.sound hr.legal hr.accepted).legal hmem).1.names
  have hcovers := hs.framed.covers
  rw [hn', hn] at hcovers
  refine ⟨hs, rfl, hm, ?_⟩
  rw [List.forall₂_nil_right_iff.mp hcovers]
  exact .nil

/-- A part runs in the same environments, when what stands before it is done. -/
theorem Fits.part {i : Nat} (hf : Fits v w ρ) (hs : v.Starts settings i v')
    (hw : w.parts[i]? = some w') : Fits v' w' ρ := by
  have hmem := List.mem_of_getElem? hw
  have hcode : v'.code = .node ρ.env w'.resolved := by
    have hc := hs.calls
    have hr : w.resolved.parts[i]? = some w'.resolved := by
      rw [← w.map_resolved_parts, List.getElem?_map, hw]
      rfl
    rw [hf.code] at hc
    generalize v'.code = code at hc ⊢
    generalize w.resolved = n at hc hr
    cases hc with
    | part hn =>
      rw [hn] at hr
      rw [Option.some.inj hr]
    | block env inner body => cases hr
    | invoke env callee line arguments f values => cases hr
  have hready := Ready.mono hs.grows hf.ready
  refine ⟨hf.sound.part hmem, hcode, hf.chain.mono hs.grows, ?_⟩
  cases (Site.partOf_of_mem_parts hf.sound.legal hmem).2 with
  | same hscopes _ _ =>
    rw [hscopes]
    exact hready
  | first s rest _ _ hscopes =>
    rw [hscopes]
    exact hready
  | initializer name value _ _ hscopes =>
    rw [hscopes]
    exact Ready.hide hready name.text
  | rest s rest hnode hnode' hscopes =>
    rw [hscopes]
    refine Ready.enterAll _ hready fun x hx => ?_
    obtain ⟨context, names, node, state⟩ := w
    obtain rfl : node = .stmts (s :: rest) := hnode
    rw [← declaredNames_resolveStmt context s state] at hx
    rcases i with _ | _ | i
    · cases hw
      cases hnode'
    · exact execute_declares (hs.rest hf.code) hf.chain.lt_size x hx
    · cases hw

/-- The body of a block runs in an environment of its own. -/
theorem Fits.block (hf : Fits v w ρ) (hs : v.Starts settings 0 v') (hw : w.block? = some w') :
    Fits v' w' (v.heap.nextEnv :: ρ) := by
  have hsound := hf.sound.block hw
  have hready := Ready.push (Ready.mono hs.grows hf.ready) v.heap.nextEnv
  obtain ⟨context, names, node, state⟩ := w
  unfold Site.block? at hw
  split at hw
  · rename_i body hnode
    obtain rfl : node = .stmt (.block body) := hnode
    cases hw
    obtain ⟨hcode, hm⟩ := hs.block hf.code
    refine ⟨hsound, hcode, ?_, hready⟩
    rw [Visit.heap, hm]
    exact hf.chain.pushEnv ∅
  · cases hw

/-- Every parameter is set when a call starts. -/
theorem contains_argumentSlots : ∀ (parameters : List Name) (values : List Value)
    (slots : Slots Value), values.length = parameters.length →
    ∀ x, slots.contains x = true ∨ x ∈ parameters.map Name.text →
      (argumentSlots parameters values slots).contains x = true
  | [], _, slots, _, x, hx => by
    rcases hx with hx | hx
    · unfold argumentSlots
      exact hx
    · cases hx
  | name :: rest, [], _, hl, _, _ => nomatch hl
  | name :: rest, value :: values, slots, hl, x, hx => by
    refine contains_argumentSlots rest values _ (Nat.succ.inj hl) x ?_
    rw [Slots.contains_set]
    rcases hx with hx | hx
    · exact .inl (.inr hx)
    · rcases List.mem_cons.mp hx with rfl | hx
      · exact .inl (.inl rfl)
      · exact .inr hx

/-- The body of a function runs in an environment of its own, inside those it was made in. -/
theorem Fits.call {h : Heap} {code : Closure} {values : List Value}
    (hf : Made.Fits h code f ρ) (hg : h.Grows v.heap) (hc : v.code = .closure code values)
    (hl : values.length = code.parameters.length) (hs : v.Starts settings 0 v') :
    Fits v' f.entry (v.heap.nextEnv :: ρ) := by
  obtain ⟨hcode, hm⟩ := hs.closure hc
  have hready := Ready.push (Ready.mono (hg.trans hs.grows) hf.ready) v.heap.nextEnv
  rw [hf.code] at hcode hm hl
  refine ⟨hf.sound.entry, hcode, ?_, ?_⟩
  · rw [Visit.heap, hm]
    exact (hf.chain.mono hg).pushEnv _
  · rw [show f.entry.scopes = enterAll (f.parameters.map Name.text) (∅ :: f.state.scopes) from
      (Walks.introduceAll f.parameters _).scopes]
    refine Ready.enterAll _ hready fun x hx => ?_
    rw [Visit.heap, hm, Heap.Has]
    simp only [Display.env, List.headD_cons, Machine.heap_pushEnv, Heap.slots_pushEnv_self]
    exact contains_argumentSlots f.parameters values ∅ hl x (.inr hx)

/-- A function is made in the environments of its site. -/
theorem Fits.function {a : v.code.Result} {m : Machine} (hf : Fits v w ρ)
    (hw : w.function? = some f) (hr : v.run settings = .ok a m) :
    Made.Fits m.heap (f.code ρ.env) f ρ := by
  have hg := Visit.grows_of_run hr
  have hready := Ready.mono hg hf.ready
  refine ⟨hf.sound.function hw, rfl, hf.chain.mono hg, ?_⟩
  obtain ⟨context, names, node, state⟩ := w
  unfold Site.function? at hw
  split at hw
  · cases hw
    exact hready
  · rename_i name parameters body hnode
    obtain rfl : node = .stmt (.functionDecl (.mk name parameters body)) := hnode
    cases hw
    rw [show (introduce name state).2.scopes = enter name.text true state.scopes from
      (Walks.introduce name state).scopes]
    exact Ready.enter hready
      (Visit.run_declares hf.code hr hf.chain.lt_size name.text (List.mem_cons_self ..))
  · cases hw

theorem Site.scopes_of_mem_methodSites {context : Context} {names : List (List String)} :
    ∀ {methods : List (Function Unit)} {s : State}, legalFunctions methods →
      f ∈ methodSites context names methods s → f.state.scopes = s.scopes
  | [], _, _, hf => nomatch hf
  | .mk name parameters body :: rest, s, hl, hf => by
    rcases List.mem_cons.mp hf with rfl | hf
    · rfl
    · rw [scopes_of_mem_methodSites hl.2 hf]
      exact (resolveFunction_walks context (methodContext name) (.mk name parameters body) hl.1
        s).scopes

/-- The scopes around the methods of a class. -/
theorem Site.scopes_of_mem_methods {name : Name} {parent : Option (Reference Unit)}
    {methods : List (Function Unit)} (hl : legalFunctions methods)
    (hn : w.node = .stmt (.classDecl name parent methods)) (hf : f ∈ w.methods) :
    f.state.scopes = Slots.single "this" true ::
      if parent.isSome then Slots.single "super" true :: enter name.text true w.scopes
      else enter name.text true w.scopes := by
  obtain ⟨context, names, node, state⟩ := w
  obtain rfl : node = .stmt (.classDecl name parent methods) := hn
  rw [Site.scopes_of_mem_methodSites hl hf]
  have hi : (introduce name state).2.scopes = enter name.text true state.scopes :=
    (Walks.introduce name state).scopes
  have hs : (resolveSuperclass name parent (introduce name state).2).2.scopes =
      enter name.text true state.scopes :=
    (Walks.resolveSuperclass name parent (introduce name state).2).scopes.trans hi
  simp only [Site.classState, hs]

/-- The node of a class declaration, with its bindings. -/
theorem Site.resolved_classDecl {name : Name} {parent : Option (Reference Unit)}
    {methods : List (Function Unit)} (hn : w.node = .stmt (.classDecl name parent methods)) :
    ∃ (parent' : Option (Reference Binding)) (methods' : List (Function Binding)),
      w.resolved = .stmt (.classDecl name parent' methods') ∧ parent'.isSome = parent.isSome := by
  obtain ⟨context, names, node, state⟩ := w
  obtain rfl : node = .stmt (.classDecl name parent methods) := hn
  exact ⟨_, _, rfl, resolveSuperclass_isSome name parent (introduce name state).2⟩

/-- A method of a class without a superclass is made in those of the declaration. -/
theorem Fits.method {a : v.code.Result} {m : Machine} {name : Name}
    {methods : List (Function Unit)} (hf : Fits v w ρ)
    (hn : w.node = .stmt (.classDecl name none methods)) (hm : f ∈ w.methods)
    (hr : v.run settings = .ok a m) : Method.Fits m.heap (f.code ρ.env) f ρ := by
  have hg := Visit.grows_of_run hr
  have hl := hf.sound.legal
  rw [hn] at hl
  obtain ⟨parent', methods', hres, -⟩ := Site.resolved_classDecl hn
  have hc := hf.code
  rw [hres] at hc
  have hx := Visit.run_declares hc hr hf.chain.lt_size name.text (List.mem_cons_self ..)
  exact ⟨hf.sound.method hm, rfl, hf.chain.mono hg, _, Site.scopes_of_mem_methods hl.2 hn hm,
    Ready.enter (Ready.mono hg hf.ready) hx⟩

/-- Otherwise it is made in the environment of `super` in front of them. -/
theorem Fits.derivedMethod {a : v.code.Result} {m : Machine} {name : Name}
    {parent : Reference Unit} {methods : List (Function Unit)} (hf : Fits v w ρ)
    (hn : w.node = .stmt (.classDecl name (some parent) methods)) (hm : f ∈ w.methods)
    (hr : v.run settings = .ok a m) :
    Method.Fits m.heap (f.code v.heap.nextEnv) f (v.heap.nextEnv :: ρ) := by
  have hg := Visit.grows_of_run hr
  have hl := hf.sound.legal
  rw [hn] at hl
  obtain ⟨parent', methods', hres, hsome⟩ := Site.resolved_classDecl hn
  have hc := hf.code
  rw [hres] at hc
  have hx := Visit.run_declares hc hr hf.chain.lt_size name.text (List.mem_cons_self ..)
  obtain ⟨found, hsuper, hm'⟩ := Visit.run_classDecl hc hr
  obtain ⟨-, hsome', -⟩ := superclassOf_eq_ok hsuper
  obtain ⟨c, rfl⟩ : ∃ c, found = some c := Option.isSome_iff_exists.mp (by rw [hsome', hsome]; rfl)
  -- The scope of `super` is made in the heap in which the name of the class is nil.
  have hnext : (v.heap.define ρ.env name.text .nil).nextEnv = v.heap.nextEnv := by
    simp [Heap.nextEnv]
  have hopened := (hf.chain.mono (Heap.grows_define v.heap ρ.env name.text .nil)).pushEnv
    (Slots.single "super" (.classRef c))
  have hlater : ((v.machine.define ρ.env name.text .nil).openClass ρ.env (some c)).heap.Grows
      m.heap := by
    rw [hm']
    exact classMachine_grows ..
  rw [hnext] at hopened
  refine ⟨hf.sound.method hm, rfl, hopened.mono hlater, _, Site.scopes_of_mem_methods hl.2 hn hm,
    .cons (Ready.single (hlater.has _ _ ?_)) (Ready.enter (Ready.mono hg hf.ready) hx)⟩
  rw [← hnext]
  unfold Heap.Has
  simp [Display.env, Machine.openClass, Slots.contains, Slots.get?, Slots.single, Slots.find?]

/-- A bound method has the environment of `this` in front of those. -/
theorem Method.Fits.bound {h : Heap} {code : Closure} {m : Machine} (object : Value)
    (hf : Method.Fits h code f ρ) (hg : h.Grows m.heap) :
    Made.Fits (m.pushEnv code.scope (Slots.single "this" object)).heap (f.code m.heap.nextEnv) f
      (m.heap.nextEnv :: ρ) := by
  obtain ⟨hs, hc, hchain, outer, hscopes, hready⟩ := hf
  rw [hc]
  refine ⟨hs, rfl, (hchain.mono hg).pushEnv _, ?_⟩
  rw [hscopes]
  refine .cons (Ready.single ?_) (Ready.mono (hg.trans (Heap.grows_pushEnv ..)) hready)
  simp [Heap.Has, Slots.contains, Slots.get?, Slots.single, Slots.find?]

/-! ### Displays fit -/

mutual

/-- A visit in lockstep with a site works on its node, in an environment whose
walk outwards is the display. -/
theorem Lockstep.fits (hroots : ∀ r ∈ roots, r.Accepted) {v : Visit} {w : Site} {ρ : Display} :
    Lockstep settings roots v w ρ → Fits v w ρ
  | .root hr hc hp => Fits.root (hroots _ hr) hc hp
  | .part hl hs hw => (Lockstep.fits hroots hl).part hs hw
  | .block hl hs hw => (Lockstep.fits hroots hl).block hs hw
  | .call hm hg _ hc hl hs => Fits.call (Made.fits hroots hm) hg hc hl hs

theorem Made.fits (hroots : ∀ r ∈ roots, r.Accepted) {h : Heap} {code : Closure}
    {f : FunctionSite} {ρ : Display} : Made settings roots h code f ρ → Made.Fits h code f ρ
  | .function hl hw hr => (Lockstep.fits hroots hl).function hw hr
  | .bound hm hg => (Method.fits hroots hm).bound _ hg

theorem Method.fits (hroots : ∀ r ∈ roots, r.Accepted) {h : Heap} {code : Closure}
    {f : FunctionSite} {ρ : Display} : Method settings roots h code f ρ → Method.Fits h code f ρ
  | .plain hl hn hf hr => (Lockstep.fits hroots hl).method hn hf hr
  | .derived hl hn hf hr => (Lockstep.fits hroots hl).derivedMethod hn hf hr

end

/-! ### Sites of visits -/

mutual

/-- The site of a visit lies within one of the programs. -/
theorem Lockstep.within {v : Visit} {w : Site} {ρ : Display} (hroots : ∀ r ∈ roots, r.Accepted) :
    Lockstep settings roots v w ρ → ∃ r ∈ roots, Within r.program w
  | .root hr hc hp =>
      ⟨_, hr, (hc.outermost (hroots _ hr)).1.part (by simp [hp])⟩
  | .part hl _ hw => (Lockstep.within hroots hl).imp fun _ h =>
      ⟨h.1, h.2.part (List.mem_of_getElem? hw)⟩
  | .block hl _ hw => (Lockstep.within hroots hl).imp fun _ h => ⟨h.1, h.2.block hw⟩
  | .call hm _ _ _ _ _ => Made.within hroots hm

/-- Every function is written in one of the programs. -/
theorem Made.within {h : Heap} {code : Closure} {f : FunctionSite} {ρ : Display}
    (hroots : ∀ r ∈ roots, r.Accepted) :
    Made settings roots h code f ρ → ∃ r ∈ roots, Within r.program f.entry
  | .function hl hw _ => (Lockstep.within hroots hl).imp fun _ h => ⟨h.1, h.2.function hw⟩
  | .bound hm _ => Method.within hroots hm

/-- So is every method. -/
theorem Method.within {h : Heap} {code : Closure} {f : FunctionSite} {ρ : Display}
    (hroots : ∀ r ∈ roots, r.Accepted) :
    Method settings roots h code f ρ → ∃ r ∈ roots, Within r.program f.entry
  | .plain hl _ hf _ => (Lockstep.within hroots hl).imp fun _ h => ⟨h.1, h.2.method hf⟩
  | .derived hl _ hf _ => (Lockstep.within hroots hl).imp fun _ h => ⟨h.1, h.2.method hf⟩

end

end ClassScript
