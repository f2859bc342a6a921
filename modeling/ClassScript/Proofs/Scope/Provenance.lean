import ClassScript.Proofs.Scope.Ends

/-!
# Where functions come from

Every evaluation of a node that the runs of accepted programs come to is in
lockstep with a site (`Reached.known`).  Functions that are called were made at
sites before, whatever way their values have taken since: that is an invariant of
the whole evaluation, together with what is known of the heap and of results.

The invariant goes through a plan step by step (`Plan.Safe`) and through
evaluation by induction on the fuel (`Visit.Known.run`).
-/

namespace ClassScript

open Resolution Run

section

variable (settings : Settings) (roots runs : List Root)

/-- The visit of a node in lockstep with a site, in a known heap. -/
structure Traced (ν : Naming) (v : Visit) (w : Site) (ρ : Display) : Prop where
  reached : Reached settings runs v
  heap : v.heap.Known settings roots ν
  lockstep : Lockstep settings roots v w ρ
  names : ρ.map ν = w.names

/-- A visit of a node that is in lockstep with a site, or of a stage of a call with
a known function and known arguments. -/
structure Visit.Known (ν : Naming) (v : Visit) : Prop where
  reached : Reached settings runs v
  heap : v.heap.Known settings roots ν
  code : match v.code with
    | .node _ _ => ∃ w ρ, Lockstep settings roots v w ρ ∧ ρ.map ν = w.names
    | .invoke callee values => callee.Known settings roots ν v.heap ∧
        (∀ a ∈ values, a.Known settings roots ν v.heap) ∧ callee.arity? = some values.length
    | .closure code values => code.Known settings roots ν v.heap ∧
        (∀ a ∈ values, a.Known settings roots ν v.heap) ∧
        values.length = code.parameters.length

/-- All values are known. -/
def KnownValues (ν : Naming) (m : Machine) (values : List Value) : Prop :=
  ∀ a ∈ values, a.Known settings roots ν m.heap

/-- The value that a completion hands on is known. -/
def KnownCompletion (ν : Naming) (m : Machine) (c : Completion) : Prop :=
  c.Known settings roots ν m.heap

/-- The result of a code is known. -/
def Code.ResultKnown (ν : Naming) (m : Machine) : (code : Code) → code.Result → Prop
  | .node _ (.expr _), a => KnownValue settings roots ν m a
  | .node _ (.exprs _), values => KnownValues settings roots ν m values
  | .node _ (.stmt _), c => KnownCompletion settings roots ν m c
  | .node _ (.stmts _), c => KnownCompletion settings roots ν m c
  | .node _ (.elifs _ _), c => KnownCompletion settings roots ν m c
  | .node _ (.loop _ _), c => KnownCompletion settings roots ν m c
  | .invoke _ _, a => KnownValue settings roots ν m a
  | .closure _ _, a => KnownValue settings roots ν m a

/-- Each step of a plan ends well, and each visit that it leads to is known. -/
def Plan.Safe {α : Type} (v : Visit) (Q : Naming → Machine → α → Prop) :
    Plan α → Naming → Machine → Prop
  | finish a, ν, m => Q ν m a
  | act step next, ν, m =>
      Ends settings roots runs (fun ν' m' b => Safe v Q (next b) ν' m') ν m (step m)
  | call i depth code next, ν, m =>
      (∀ fuel, v.Starts settings i ⟨fuel, depth, code, m⟩ →
        Visit.Known settings roots runs ν ⟨fuel, depth, code, m⟩) ∧
      ∀ a ν' m', Later settings roots ν m.heap ν' m'.heap →
        code.ResultKnown settings roots ν' m' a → Safe v Q (next a) ν' m'

/-- The result comes later and has the property `P`. -/
def After {α : Type} (ν : Naming) (m : Machine) (P : Naming → Machine → α → Prop) (ν' : Naming)
    (m' : Machine) (a : α) : Prop :=
  Later settings roots ν m.heap ν' m'.heap ∧ P ν' m' a

end

variable {settings : Settings} {roots runs : List Root} {ν₀ ν : Naming} {m : Machine} {v : Visit}

/-! ## Rules for plans -/

namespace Plan.Safe

variable {α β : Type} {Q : Naming → Machine → α → Prop} {Q' : Naming → Machine → β → Prop}

theorem bind {p : Plan β} {f : β → Plan α} (hp : p.Safe settings roots runs v Q' ν m)
    (hf : ∀ b ν' m', Q' ν' m' b → (f b).Safe settings roots runs v Q ν' m') :
    (p >>= f).Safe settings roots runs v Q ν m := by
  induction p generalizing ν m with
  | finish b => exact hf b ν m hp
  | act step next ih => exact Ends.imp hp fun b _ _ _ hb => ih b hb
  | call i depth code next ih =>
    exact ⟨hp.1, fun a ν' m' hl ha => ih a (hp.2 a ν' m' hl ha)⟩

theorem lift {step : Run α} (hs : Ends settings roots runs Q ν m (step m)) :
    (lift step).Safe settings roots runs v (After settings roots ν m Q) ν m :=
  hs.imp fun _ _ _ hl hq => ⟨hl, hq⟩

theorem imp {P : Naming → Machine → α → Prop} {p : Plan α} (hp : p.Safe settings roots runs v P ν m)
    (hq : ∀ a ν' m', P ν' m' a → Q ν' m' a) : p.Safe settings roots runs v Q ν m := by
  induction p generalizing ν m with
  | finish a => exact hq a ν m hp
  | act step next ih => exact Ends.imp hp fun b _ _ _ hb => ih b hb
  | call i depth code next ih => exact ⟨hp.1, fun a ν' m' hl ha => ih a (hp.2 a ν' m' hl ha)⟩

theorem last {p : Plan α} (hp : p.Safe settings roots runs v (After settings roots ν m Q) ν m) :
    p.Safe settings roots runs v Q ν m :=
  hp.imp fun _ _ _ ha => ha.2

theorem invoke (hv : Reached settings runs v) (hk : m.heap.Known settings roots ν) {i depth : Nat}
    {f : Value} {values : List Value} (hf : f.Known settings roots ν m.heap)
    (hvalues : ∀ a ∈ values, a.Known settings roots ν m.heap)
    (harity : f.arity? = some values.length) :
    (Plan.invoke i depth f values).Safe settings roots runs v
      (After settings roots ν m (KnownValue settings roots)) ν m :=
  ⟨fun _ hs => ⟨.step hv hs, hk, hf, hvalues, harity⟩, fun _ _ _ hl ha => ⟨hl, ha⟩⟩

theorem closure (hv : Reached settings runs v) (hk : m.heap.Known settings roots ν)
    {i depth : Nat} {code : Closure} {values : List Value}
    (hc : code.Known settings roots ν m.heap)
    (hvalues : ∀ a ∈ values, a.Known settings roots ν m.heap)
    (hlength : values.length = code.parameters.length) :
    (Plan.closure i depth code values).Safe settings roots runs v
      (After settings roots ν m (KnownValue settings roots)) ν m :=
  ⟨fun _ hs => ⟨.step hv hs, hk, hc, hvalues, hlength⟩, fun _ _ _ hl ha => ⟨hl, ha⟩⟩

/-- A plan is as good as its parts: if the visits that it leads to end well, so
does the plan, and they are all known. -/
theorem sound {fuel : Nat} {p : Plan α} (hp : p.Safe settings roots runs v Q ν m)
    (hk : m.heap.Known settings roots ν)
    (ih : ∀ (u : Visit) (ν : Naming), u.fuel = fuel → u.Known settings roots runs ν →
      Ends settings roots runs (fun ν m a => u.code.ResultKnown settings roots ν m a) ν u.machine
        (u.run settings))
    (hmeets : ∀ i depth code m', p.Meets (Code.run settings fuel) m i depth code m' →
      v.Starts settings i ⟨fuel, depth, code, m'⟩) :
    Ends settings roots runs Q ν m (p.follow (Code.run settings fuel) m) ∧
      ∀ i depth code m', p.Meets (Code.run settings fuel) m i depth code m' →
        ∃ ν', Visit.Known settings roots runs ν' ⟨fuel, depth, code, m'⟩ := by
  induction p generalizing ν m with
  | finish a => exact ⟨.ok hk hp, fun i depth code m' hm => nomatch hm⟩
  | @act β step next ihp =>
    unfold Safe at hp
    unfold follow
    rw [bind_apply]
    cases hs : step m with
    | error e m' =>
      rw [hs] at hp
      refine ⟨hp, fun i depth code m₁ hm => ?_⟩
      cases hm with
      | act hs' _ =>
        rw [hs] at hs'
        cases hs'
    | ok b m' =>
      rw [hs] at hp
      obtain ⟨ν', hl, hb⟩ := hp
      obtain ⟨hend, hvisits⟩ := ihp b hb hl.known fun i depth code m₁ hm =>
        hmeets i depth code m₁ (.act hs hm)
      refine ⟨hend.after hl, fun i depth code m₁ hm => ?_⟩
      cases hm with
      | act hs' hm =>
        rw [hs] at hs'
        cases hs'
        exact hvisits i depth code m₁ hm
  | call part n other next ihp =>
    have hknown := hp.1 fuel (hmeets _ _ _ _ (.here ..))
    have hrun := ih _ ν rfl hknown
    unfold follow
    rw [bind_apply]
    unfold Visit.run at hrun
    dsimp only at hrun
    cases hs : other.run settings fuel n m with
    | error e m' =>
      rw [hs] at hrun
      refine ⟨hrun, fun i depth code m₁ hm => ?_⟩
      cases hm with
      | here => exact ⟨ν, hknown⟩
      | call hs' _ =>
        rw [hs] at hs'
        cases hs'
    | ok a m' =>
      rw [hs] at hrun
      obtain ⟨ν', hl, ha⟩ := hrun
      obtain ⟨hend, hvisits⟩ := ihp a (hp.2 a ν' m' hl ha) hl.known fun i depth code m₁ hm =>
        hmeets i depth code m₁ (.call hs hm)
      refine ⟨hend.after hl, fun i depth code m₁ hm => ?_⟩
      cases hm with
      | here => exact ⟨ν, hknown⟩
      | call hs' hm =>
        rw [hs] at hs'
        cases hs'
        exact hvisits i depth code m₁ hm

end Plan.Safe

/-! ## Nodes -/

theorem Visit.run_of_follow {n : Nat} (hfuel : v.fuel = n + 1) {code : Code} (hc : v.code = code)
    {a : code.Result} {m' : Machine}
    (hr : (code.plan settings v.depth).follow (Code.run settings n) v.machine = .ok a m') :
    ∃ a, v.run settings = .ok a m' := by
  obtain ⟨fuel, depth, code', m⟩ := v
  obtain rfl : fuel = n + 1 := hfuel
  obtain rfl : code' = code := hc
  exact ⟨a, by rw [Visit.run, Code.run_succ, hr]⟩

theorem follow_normal {child : (depth : Nat) → (code : Code) → Run code.Result} {step : Run Unit}
    {m m' : Machine} (hs : step m = .ok () m') :
    (Plan.lift step >>= fun _ => pure Completion.normal).follow child m = .ok .normal m' := by
  rw [Plan.follow_bind, Plan.follow_lift, bind_apply, hs]
  rfl

namespace Traced

variable {w : Site} {ρ : Display} (hroots : ∀ r ∈ roots, r.Accepted)
  (ht : Traced settings roots runs ν₀ v w ρ)
include hroots ht

theorem fits : Fits v w ρ := ht.lockstep.fits hroots

theorem known_of_parts {i depth : Nat} {n : Node Binding}
    (hl : Later settings roots ν₀ v.heap ν m.heap) (hp : w.resolved.parts[i]? = some n)
    (fuel : Nat) (hs : v.Starts settings i ⟨fuel, depth, .node ρ.env n, m⟩) :
    Visit.Known settings roots runs ν ⟨fuel, depth, .node ρ.env n, m⟩ := by
  have hf := ht.fits hroots
  obtain ⟨w', hw⟩ : ∃ w', w.parts[i]? = some w' := by
    rw [← w.map_resolved_parts, List.getElem?_map] at hp
    exact (Option.map_eq_some_iff.mp hp).imp fun _ h => h.1
  have hnames := (Site.partOf_of_mem_parts hf.sound.legal (List.mem_of_getElem? hw)).1.names
  refine ⟨.step ht.reached hs, hl.known, w', ρ, .part ht.lockstep hs hw, ?_⟩
  rw [hl.map_eq hf.chain, ht.names, hnames]

section

variable {i depth : Nat} (hl : Later settings roots ν₀ v.heap ν m.heap)
include hl

theorem expr {e : Expr Binding} (hp : w.resolved.parts[i]? = some (.expr e)) :
    (Plan.expr i depth ρ.env e).Safe settings roots runs v
      (After settings roots ν m (KnownValue settings roots)) ν m :=
  ⟨ht.known_of_parts hroots hl hp, fun _ _ _ hl' ha => ⟨hl', ha⟩⟩

theorem exprs {es : List (Expr Binding)} (hp : w.resolved.parts[i]? = some (.exprs es)) :
    (Plan.exprs i depth ρ.env es).Safe settings roots runs v
      (After settings roots ν m (KnownValues settings roots)) ν m :=
  ⟨ht.known_of_parts hroots hl hp, fun _ _ _ hl' ha => ⟨hl', ha⟩⟩

theorem stmt {s : Stmt Binding} (hp : w.resolved.parts[i]? = some (.stmt s)) :
    (Plan.stmt i depth ρ.env s).Safe settings roots runs v
      (After settings roots ν m (KnownCompletion settings roots)) ν m :=
  ⟨ht.known_of_parts hroots hl hp, fun _ _ _ hl' ha => ⟨hl', ha⟩⟩

theorem stmts {body : List (Stmt Binding)} (hp : w.resolved.parts[i]? = some (.stmts body)) :
    (Plan.stmts i depth ρ.env body).Safe settings roots runs v
      (After settings roots ν m (KnownCompletion settings roots)) ν m :=
  ⟨ht.known_of_parts hroots hl hp, fun _ _ _ hl' ha => ⟨hl', ha⟩⟩

theorem elifs {branches : List (Elif Binding)} {elseBranch : Option (Stmt Binding)}
    (hp : w.resolved.parts[i]? = some (.elifs branches elseBranch)) :
    (Plan.elifs i depth ρ.env branches elseBranch).Safe settings roots runs v
      (After settings roots ν m (KnownCompletion settings roots)) ν m :=
  ⟨ht.known_of_parts hroots hl hp, fun _ _ _ hl' ha => ⟨hl', ha⟩⟩

theorem loop {condition : Expr Binding} {body : Stmt Binding}
    (hp : w.resolved.parts[i]? = some (.loop condition body)) :
    (Plan.loop i depth ρ.env condition body).Safe settings roots runs v
      (After settings roots ν m (KnownCompletion settings roots)) ν m :=
  ⟨ht.known_of_parts hroots hl hp, fun _ _ _ hl' ha => ⟨hl', ha⟩⟩

end

omit hroots in
/-- A function that a node makes is known when the visit of the node is over. -/
theorem known_function {f : FunctionSite} (hw : w.function? = some f) {a : v.code.Result}
    (hr : v.run settings = .ok a m) : (f.code ρ.env).Known settings roots ν₀ m.heap := by
  refine ⟨m.heap, f, ρ, .function ht.lockstep hw hr, .refl _, ?_⟩
  rw [ht.names, Site.names_of_function? hw]

/-- The body of a block is visited in a new environment. -/
theorem block {w' : Site} (hw : w.block? = some w') {declared : List String}
    (hn : w'.names = declared :: w.names) (hl : Later settings roots ν₀ v.heap ν m.heap)
    (hnext : ν v.heap.nextEnv = declared) {depth : Nat} {body : List (Stmt Binding)} :
    (Plan.stmts 0 depth v.heap.nextEnv body).Safe settings roots runs v
      (After settings roots ν m (KnownCompletion settings roots)) ν m := by
  refine ⟨fun fuel hs => ⟨.step ht.reached hs, hl.known, w', v.heap.nextEnv :: ρ,
    .block ht.lockstep hs hw, ?_⟩, fun _ _ _ hl' ha => ⟨hl', ha⟩⟩
  rw [List.map_cons, hnext, hl.map_eq (ht.fits hroots).chain, ht.names, hn]

/-- The environment at hand has room for the names that a node declares. -/
theorem names_of_declared {x : String} (hx : x ∈ w.node.declared)
    (hl : Later settings roots ν₀ v.heap ν m.heap) : ρ.env ≠ .globals → x ∈ ν ρ.env := by
  intro hne
  have hf := ht.fits hroots
  rw [hl.keeps _ hf.chain.lt_size]
  have hn := ht.names
  cases ρ with
  | nil => exact absurd rfl hne
  | cons env rest =>
    refine hf.sound.declares (ν₀ env) ?_ x hx
    rw [← hn]
    rfl

section

variable (hb : settings.lookup = .bound) {n : Nat} (hfuel : v.fuel = n + 1)
include hb hfuel

theorem plan_expr {e : Expr Binding} (hr : w.resolved = .expr e) :
    (e.plan settings v.depth ρ.env).Safe settings roots runs v (KnownValue settings roots) ν₀
      v.machine := by
  have hf := ht.fits hroots
  have hk := ht.heap
  have hl := Later.refl hk
  have hp : ∀ {i : Nat} {n : Node Binding}, e.parts[i]? = some n →
      w.resolved.parts[i]? = some n := by
    rw [hr]
    exact id
  have hcode : v.code = .node ρ.env (.expr e) := by rw [hf.code, hr]
  cases e with
  | literal value => exact Value.known_ofLiteral value
  | grouping inner => exact (ht.expr hroots hl (hp rfl)).last
  | unary op line operand =>
    refine (ht.expr hroots hl (hp rfl)).bind fun a ν₁ m₁ ⟨hl₁, _⟩ => ?_
    exact (Plan.Safe.lift (orFail_ends hl₁.known fun _ hb => UnaryOp.known_of_apply hb)).last
  | binary left op line right =>
    refine (ht.expr hroots hl (hp rfl)).bind fun a ν₁ m₁ ⟨hl₁, _⟩ => ?_
    refine (ht.expr hroots hl₁ (hp rfl)).bind fun b ν₂ m₂ ⟨hl₂, _⟩ => ?_
    exact (Plan.Safe.lift (orFail_ends hl₂.known fun _ hb => BinaryOp.known_of_apply hb)).last
  | logical left op line right =>
    refine (ht.expr hroots hl (hp rfl)).bind fun a ν₁ m₁ ⟨hl₁, ha⟩ => ?_
    split
    · exact ha
    · exact (ht.expr hroots hl₁ (hp rfl)).last
  | «variable» target =>
    exact (Plan.Safe.lift (read_ends hb hk hroots ht.reached ht.lockstep (by rw [hr]; rfl))).last
  | assign target value =>
    refine (ht.expr hroots hl (hp rfl)).bind fun a ν₁ m₁ ⟨hl₁, ha⟩ => ?_
    refine (Plan.Safe.lift (write_ends hb hroots hf hr ht.names hl₁ ha)).bind
      fun _ ν₂ m₂ ⟨hl₂, _⟩ => ?_
    exact Value.Known.later hroots hl₂ ha
  | call callee line arguments =>
    refine (ht.expr hroots hl (hp rfl)).bind fun f ν₁ m₁ ⟨hl₁, hf⟩ => ?_
    refine (ht.exprs hroots hl₁ (hp rfl)).bind fun values ν₂ m₂ ⟨hl₂, hvalues⟩ => ?_
    refine (Plan.Safe.lift (checkCall_ends hl₂.known)).bind fun _ ν₃ m₃ ⟨hl₃, harity⟩ => ?_
    exact (Plan.Safe.invoke ht.reached hl₃.known (Value.Known.later hroots (hl₂.trans hl₃) hf)
      (fun a ha => Value.Known.later hroots hl₃ (hvalues a ha)) harity).last
  | get object property =>
    refine (ht.expr hroots hl (hp rfl)).bind fun a ν₁ m₁ ⟨hl₁, ha⟩ => ?_
    cases a with
    | object id definition =>
      exact (Plan.Safe.lift (getProperty_ends hroots hl₁.known ha)).last
    | _ => exact (Plan.Safe.lift (Ends.failure hl₁.known _)).last
  | set object field value =>
    refine (ht.expr hroots hl (hp rfl)).bind fun a ν₁ m₁ ⟨hl₁, ha⟩ => ?_
    cases a with
    | object id definition =>
      refine (ht.expr hroots hl₁ (hp rfl)).bind fun b ν₂ m₂ ⟨hl₂, hb⟩ => ?_
      refine (Plan.Safe.lift (setField_ends hroots hl₂.known hb)).bind fun _ ν₃ m₃ ⟨hl₃, _⟩ => ?_
      exact Value.Known.later hroots hl₃ hb
    | _ => exact (Plan.Safe.lift (Ends.failure hl₁.known _)).last
  | this line binding =>
    exact (Plan.Safe.lift (readThis_ends hb hk hf hr)).last
  | super line method binding =>
    exact (Plan.Safe.lift (getSuper_ends hroots hk hf rfl hr)).last
  | lambda line parameters body =>
    obtain ⟨f, hw, hcodes⟩ := Site.function?_of_lambda hr
    have hid := hk.takeId hroots
    obtain ⟨a, hrun⟩ := Visit.run_of_follow hfuel hcode
      ((congrFun (Plan.follow_lift _) v.machine).trans (newFunction_apply _ v.machine))
    have hknown := ht.known_function hw hrun
    rw [hcodes] at hknown
    refine Plan.Safe.last (Plan.Safe.lift ?_)
    rw [newFunction_apply]
    exact ⟨ν₀, hid, hknown⟩

theorem plan_stmt {s : Stmt Binding} (hr : w.resolved = .stmt s) :
    (s.plan settings v.depth ρ.env).Safe settings roots runs v (KnownCompletion settings roots) ν₀
      v.machine := by
  have hf := ht.fits hroots
  have hk := ht.heap
  have hl := Later.refl hk
  have hlt := hf.chain.lt_size
  have hp : ∀ {i : Nat} {n : Node Binding}, s.parts[i]? = some n →
      w.resolved.parts[i]? = some n := by
    rw [hr]
    exact id
  have hcode : v.code = .node ρ.env (.stmt s) := by rw [hf.code, hr]
  have hdeclared : ∀ name : Name, s.declared = some name → name.Ordinary ∧
      name.text ∈ w.node.declared := fun name hd => hf.sound.declared hr hd
  cases s with
  | expression value => exact (ht.expr hroots hl (hp rfl)).bind fun _ _ _ _ => trivial
  | print value =>
    refine (ht.expr hroots hl (hp rfl)).bind fun a ν₁ m₁ ⟨hl₁, _⟩ => ?_
    exact (Plan.Safe.lift (emit_ends hl₁.known _)).bind fun _ _ _ _ => trivial
  | var name initializer =>
    obtain ⟨hordinary, hmem⟩ := hdeclared name rfl
    cases initializer with
    | none =>
      have hnil : Value.Known settings roots ν₀ v.heap .nil := trivial
      exact (Plan.Safe.lift (declareVariable_ends hroots hk hlt hordinary
        (ht.names_of_declared hroots hmem hl) hnil)).bind fun _ _ _ _ => trivial
    | some value =>
      refine (ht.expr hroots hl (hp rfl)).bind fun a ν₁ m₁ ⟨hl₁, ha⟩ => ?_
      exact (Plan.Safe.lift (declareVariable_ends hroots hl₁.known
        (Nat.lt_of_lt_of_le hlt hl₁.grows.size) hordinary
        (ht.names_of_declared hroots hmem hl₁) ha)).bind fun _ _ _ _ => trivial
  | block body =>
    obtain ⟨w', declared, hw, hn⟩ := Site.block?_of_block hr
    have hnew : Ends settings roots runs
        (fun ν' _ env => env = v.heap.nextEnv ∧ ν' env = declared) ν₀ v.machine
        (newEnv ρ.env ∅ v.machine) :=
      newEnv_ends hroots hk nofun rfl nofun
    refine (Plan.Safe.lift hnew).bind fun inner ν₁ m₁ ⟨hl₁, hinner, hnames⟩ => ?_
    subst hinner
    exact (ht.block hroots hw hn hl₁ hnames).last
  | ifStmt condition thenBranch elifs elseBranch =>
    refine (ht.expr hroots hl (hp rfl)).bind fun a ν₁ m₁ ⟨hl₁, ha⟩ => ?_
    refine (Plan.Safe.lift (note_ends hl₁.known _ _)).bind fun _ ν₂ m₂ ⟨hl₂, _⟩ => ?_
    split
    · exact (ht.stmt hroots (hl₁.trans hl₂) (hp rfl)).last
    · exact (ht.elifs hroots (hl₁.trans hl₂) (hp rfl)).last
  | whileStmt condition body => exact (ht.loop hroots hl (hp rfl)).last
  | functionDecl f =>
    obtain ⟨name, parameters, body⟩ := f
    obtain ⟨hordinary, hmem⟩ := hdeclared name rfl
    obtain ⟨f, hw, hcodes⟩ := Site.function?_of_functionDecl hr
    refine (Plan.Safe.lift (declareFunction_ends hroots hk hlt hordinary
      (ht.names_of_declared hroots hmem hl) fun m' hm => ?_)).bind fun _ _ _ _ => trivial
    obtain ⟨a, hrun⟩ := Visit.run_of_follow hfuel hcode (follow_normal hm)
    rw [← hcodes]
    exact ht.known_function hw hrun
  | returnStmt line value =>
    cases value with
    | none => exact trivial
    | some value => exact (ht.expr hroots hl (hp rfl)).bind fun _ _ _ ⟨_, ha⟩ => ha
  | breakStmt line => exact trivial
  | classDecl name superclass methods =>
    obtain ⟨hordinary, hmem⟩ := hdeclared name rfl
    exact (Plan.Safe.lift (declareClass_ends hroots hb hk ht.reached ht.lockstep ht.names hr
      hordinary (ht.names_of_declared hroots hmem hl)
      fun m' hm => Visit.run_of_follow hfuel hcode (follow_normal hm))).bind
        fun _ _ _ _ => trivial

omit hb hfuel in
theorem plan_exprs {es : List (Expr Binding)} (hr : w.resolved = .exprs es) :
    (Plan.ofExprs v.depth ρ.env es).Safe settings roots runs v (KnownValues settings roots) ν₀
      v.machine := by
  have hl := Later.refl ht.heap
  cases es with
  | nil => exact nofun
  | cons e rest =>
    refine (ht.expr hroots hl (by rw [hr]; rfl)).bind fun a ν₁ m₁ ⟨hl₁, ha⟩ => ?_
    refine (ht.exprs hroots hl₁ (by rw [hr]; rfl)).bind fun values ν₂ m₂ ⟨hl₂, hvalues⟩ => ?_
    intro b hb
    rcases List.mem_cons.mp hb with rfl | hb
    · exact Value.Known.later hroots hl₂ ha
    · exact hvalues b hb

omit hb hfuel in
theorem plan_stmts {body : List (Stmt Binding)} (hr : w.resolved = .stmts body) :
    (Plan.ofStmts v.depth ρ.env body).Safe settings roots runs v (KnownCompletion settings roots) ν₀
      v.machine := by
  have hl := Later.refl ht.heap
  cases body with
  | nil => exact trivial
  | cons s rest =>
    refine (ht.stmt hroots hl (by rw [hr]; rfl)).bind fun completion ν₁ m₁ ⟨hl₁, hc⟩ => ?_
    cases completion with
    | normal => exact (ht.stmts hroots hl₁ (by rw [hr]; rfl)).last
    | broke => exact trivial
    | returned a => exact hc

omit hb hfuel in
theorem plan_elifs {branches : List (Elif Binding)} {elseBranch : Option (Stmt Binding)}
    (hr : w.resolved = .elifs branches elseBranch) :
    (Plan.ofElifs v.depth ρ.env branches elseBranch).Safe settings roots runs v
      (KnownCompletion settings roots) ν₀ v.machine := by
  have hl := Later.refl ht.heap
  rcases branches with _ | ⟨⟨condition, body⟩, rest⟩
  · cases elseBranch with
    | none => exact trivial
    | some s => exact (ht.stmt hroots hl (by rw [hr]; rfl)).last
  · refine (ht.expr hroots hl (by rw [hr]; rfl)).bind fun a ν₁ m₁ ⟨hl₁, _⟩ => ?_
    split
    · exact (ht.stmt hroots hl₁ (by rw [hr]; rfl)).last
    · exact (ht.elifs hroots hl₁ (by rw [hr]; rfl)).last

omit hb hfuel in
theorem plan_loop {condition : Expr Binding} {body : Stmt Binding}
    (hr : w.resolved = .loop condition body) :
    (Plan.ofLoop settings v.depth ρ.env condition body).Safe settings roots runs v
      (KnownCompletion settings roots) ν₀ v.machine := by
  have hl := Later.refl ht.heap
  refine (ht.expr hroots hl (by rw [hr]; rfl)).bind fun a ν₁ m₁ ⟨hl₁, _⟩ => ?_
  refine (Plan.Safe.lift (note_ends hl₁.known _ _)).bind fun _ ν₂ m₂ ⟨hl₂, _⟩ => ?_
  have hl₂ := hl₁.trans hl₂
  split
  · exact trivial
  · refine (ht.stmt hroots hl₂ (by rw [hr]; rfl)).bind fun completion ν₃ m₃ ⟨hl₃, hc⟩ => ?_
    cases completion with
    | normal => exact (ht.loop hroots (hl₂.trans hl₃) (by rw [hr]; rfl)).last
    | broke => exact trivial
    | returned a => exact hc

end

end Traced

/-! ## Calls -/

theorem argument_of_get? {x : String} {a : Value} : ∀ {parameters : List Name}
    {values : List Value} {slots : Slots Value},
      (argumentSlots parameters values slots).get? x = some a →
        slots.get? x = some a ∨ (a ∈ values ∧ x ∈ parameters.map Name.text)
  | [], _, _, hx => by
    unfold argumentSlots at hx
    exact .inl hx
  | _ :: _, [], _, hx => .inl hx
  | name :: rest, value :: values, slots, hx => by
    have hrest : (argumentSlots rest values (slots.set name.text value)).get? x = some a := hx
    rcases argument_of_get? hrest with hx | ⟨ha, hx⟩
    · by_cases hne : name.text = x
      · subst hne
        rw [Slots.get?_set_self] at hx
        obtain rfl := Option.some.inj hx
        exact .inr ⟨List.mem_cons_self .., List.mem_cons_self ..⟩
      · rw [Slots.get?_set_of_ne _ _ hne] at hx
        exact .inl hx
    · exact .inr ⟨List.mem_cons_of_mem _ ha, List.mem_cons_of_mem _ hx⟩

section

variable (hroots : ∀ r ∈ roots, r.Accepted) (hv : Reached settings runs v)
  (hk : v.heap.Known settings roots ν)
include hroots hv hk

theorem plan_invoke_safe {callee : Value} {values : List Value} {depth : Nat}
    (hf : callee.Known settings roots ν v.heap)
    (hvalues : ∀ a ∈ values, a.Known settings roots ν v.heap)
    (harity : callee.arity? = some values.length) :
    (Plan.ofCall settings depth callee values).Safe settings roots runs v
      (KnownValue settings roots) ν v.machine := by
  cases callee with
  | function id code =>
    exact (Plan.Safe.closure hv hk hf hvalues (Option.some.inj harity).symm).last
  | native id f =>
    cases f
    exact (Plan.Safe.lift (readClock_ends hk)).last
  | classRef definition =>
    refine (Plan.Safe.lift (newObject_ends hroots hk)).bind ?_
    rintro id ν₁ m₁ ⟨hl₁, hid⟩
    have hdefinition : definition.Known settings roots ν₁ m₁.heap :=
      Value.Known.later hroots hl₁ hf
    have hobject : (Value.object id definition).Known settings roots ν₁ m₁.heap :=
      ⟨hid, hdefinition⟩
    have hlength : definition.arity = values.length := Option.some.inj harity
    unfold Class.arity at hlength
    split
    · exact hobject
    · rename_i method hm
      rw [hm] at hlength
      refine (Plan.Safe.lift (bindMethod_ends hroots hl₁.known (hdefinition.findMethod hm)
        hobject)).bind ?_
      rintro code ν₂ m₂ ⟨hl₂, hcode, hparameters⟩
      have hcall : (Plan.closure 0 depth code values).Safe settings roots runs v
          (After settings roots ν₂ m₂ (KnownValue settings roots)) ν₂ m₂ :=
        Plan.Safe.closure hv hl₂.known hcode
          (fun a ha => Value.Known.later hroots (hl₁.trans hl₂) (hvalues a ha))
          (by rw [hparameters, ← hlength])
      refine hcall.bind ?_
      rintro - ν₃ m₃ ⟨hl₃, -⟩
      exact Value.Known.later hroots (hl₂.trans hl₃) hobject
  | _ => cases harity

theorem plan_closure_safe (hsub : runs ⊆ roots) {code : Closure} {values : List Value} {depth : Nat}
    (hcode : v.code = .closure code values) (hc : code.Known settings roots ν v.heap)
    (hvalues : ∀ a ∈ values, a.Known settings roots ν v.heap)
    (hlength : values.length = code.parameters.length) :
    (Plan.ofClosure depth code values).Safe settings roots runs v (KnownValue settings roots) ν
      v.machine := by
  obtain ⟨h₀, f, ρ, hmade, hg, hn⟩ := id hc
  have hf := Made.fits hroots hmade
  obtain rfl := hf.code
  have hmem : ∀ {x : String} {a : Value},
      (argumentSlots f.parameters values ∅).get? x = some a →
        a ∈ values ∧ x ∈ f.parameters.map Name.text := fun hx =>
    (argument_of_get? hx).resolve_left nofun
  have hnew : Ends settings roots runs (fun ν' _ env => env = v.heap.nextEnv ∧
      ν' env = f.parameters.map Name.text ++ declaredNames f.body) ν v.machine
        (newEnv ρ.env (argumentSlots f.parameters values ∅) v.machine) := by
    refine newEnv_ends hroots hk (fun x a hx => hvalues a (hmem hx).1) ?_ fun x hx => ?_
    · rw [Bool.eq_false_iff]
      intro hx
      obtain ⟨a, ha⟩ := Option.isSome_iff_exists.mp hx
      obtain ⟨p, hp, he⟩ := List.mem_map.mp (hmem ha).2
      exact (hf.sound.ordinary p hp).2 he
    · obtain ⟨a, ha⟩ := Option.isSome_iff_exists.mp hx
      exact List.mem_append_left _ (hmem ha).2
  refine (Plan.Safe.lift hnew).bind fun env ν₁ m₁ ⟨hl₁, henv, hnames⟩ => ?_
  subst henv
  have hbody : (Plan.stmts 0 depth v.heap.nextEnv (f.code ρ.env).body).Safe settings roots runs v
      (After settings roots ν₁ m₁ (KnownCompletion settings roots)) ν₁ m₁ := by
    refine ⟨fun fuel hs => ⟨.step hv hs, hl₁.known, f.entry, v.heap.nextEnv :: ρ,
      .call hmade hg (hv.mono hsub) hcode hlength hs, ?_⟩, fun _ _ _ hl ha => ⟨hl, ha⟩⟩
    rw [List.map_cons, hnames, hl₁.map_eq (hf.chain.mono hg), hn]
    rfl
  refine hbody.bind fun completion ν₂ m₂ ⟨hl₂, hcompletion⟩ => ?_
  have hl := hl₁.trans hl₂
  exact (Plan.Safe.lift (callValue_ends hl.known (hc.mono hroots hl.grows hl.keeps)
    hcompletion)).last

end

/-! ## Evaluation -/

/-- One level of the evaluation of a known visit is safe. -/
theorem Visit.Known.plan_safe (hroots : ∀ r ∈ roots, r.Accepted) (hsub : runs ⊆ roots)
    (hb : settings.lookup = .bound)
    (hv : v.Known settings roots runs ν) {n : Nat} (hfuel : v.fuel = n + 1) :
    (v.code.plan settings v.depth).Safe settings roots runs v
      (fun ν m a => v.code.ResultKnown settings roots ν m a) ν v.machine := by
  obtain ⟨hreached, hk, hcode⟩ := hv
  obtain ⟨fuel, depth, code, m⟩ := v
  cases code with
  | node env n =>
    obtain ⟨w, ρ, hl, hn⟩ := hcode
    have ht : Traced settings roots runs ν ⟨fuel, depth, .node env n, m⟩ w ρ :=
      ⟨hreached, hk, hl, hn⟩
    obtain ⟨rfl, hr⟩ := Code.node.inj (ht.fits hroots).code
    cases n with
    | expr e => exact ht.plan_expr hroots hb hfuel hr.symm
    | exprs es => exact ht.plan_exprs hroots hr.symm
    | stmt s => exact ht.plan_stmt hroots hb hfuel hr.symm
    | stmts body => exact ht.plan_stmts hroots hr.symm
    | elifs branches elseBranch => exact ht.plan_elifs hroots hr.symm
    | loop condition body => exact ht.plan_loop hroots hr.symm
  | invoke callee values => exact plan_invoke_safe hroots hreached hk hcode.1 hcode.2.1 hcode.2.2
  | closure code values =>
    exact plan_closure_safe hroots hreached hk hsub rfl hcode.1 hcode.2.1 hcode.2.2

/-- A known visit ends well. -/
theorem Visit.Known.run (hroots : ∀ r ∈ roots, r.Accepted) (hsub : runs ⊆ roots)
    (hb : settings.lookup = .bound) :
    ∀ (fuel : Nat) (v : Visit) (ν : Naming), v.fuel = fuel → v.Known settings roots runs ν →
      Ends settings roots runs (fun ν m a => v.code.ResultKnown settings roots ν m a) ν v.machine
        (v.run settings) := by
  intro fuel
  induction fuel with
  | zero =>
    intro v ν hfuel hv
    rw [Visit.run, hfuel, Code.run_zero]
    exact ⟨trivial, ν, .refl hv.heap⟩
  | succ fuel ih =>
    intro v ν hfuel hv
    have hsafe := hv.plan_safe hroots hsub hb hfuel
    rw [Visit.run, hfuel, Code.run_succ]
    exact (hsafe.sound hv.heap ih fun i depth code m' hm => ⟨hfuel, hm⟩).1

/-- The visits that a known visit starts are known. -/
theorem Visit.Known.starts (hroots : ∀ r ∈ roots, r.Accepted) (hsub : runs ⊆ roots)
    (hb : settings.lookup = .bound)
    (hv : v.Known settings roots runs ν) {i : Nat} {v' : Visit} (hs : v.Starts settings i v') :
    ∃ ν', v'.Known settings roots runs ν' := by
  have hsafe := hv.plan_safe hroots hsub hb hs.1
  exact (hsafe.sound hv.heap (Visit.Known.run hroots hsub hb v'.fuel)
    fun i depth code m' hm => ⟨hs.1, hm⟩).2 _ _ _ _ hs.2

end ClassScript
