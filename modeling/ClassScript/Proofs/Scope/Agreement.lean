import ClassScript.Proofs.Heap.Lookup
import ClassScript.Proofs.Scope.Order
import ClassScript.Proofs.Scope.Provenance

/-!
# Lookup by name

References can also be looked up by their names, from the environment at hand
outwards, whatever they are bound to (`Settings.byName`).  In ordered programs both
ways come to the same variable (`Fits.lookup`): the scope that a name is bound to has
it ready for use, and no environment further in has a name that its scope does not
declare.  So all evaluations agree (`Visit.Known.run_byName`).
-/

namespace ClassScript

open Resolution Run

/-- The settings under which references are looked up by name. -/
def Settings.byName (settings : Settings) : Settings := { settings with lookup := .byName }

/-! ## What a lookup finds -/

theorem Accounted.at {later declared : List String} {scopes : List StaticScope}
    {names : List (List String)} (ha : Accounted later declared scopes names) {i : Nat}
    {scope : StaticScope} {here : List String} (hs : scopes[i]? = some scope)
    (hn : names[i]? = some here) : Accounts (declared ++ later) scope here := by
  cases ha with
  | nil => cases hs
  | cons hf ho =>
    cases i with
    | zero =>
      cases hs
      cases hn
      exact hf
    | succ i =>
      have hat : Accounts later scope here := by
        induction ho generalizing i with
        | nil => cases hs
        | cons hfirst _ ih =>
          cases i with
          | zero =>
            cases hs
            cases hn
            exact hfirst
          | succ i => exact ih i hs hn
      exact hat.mono (List.subset_append_right ..)

/-- A name that is not declared later is ready for use where it is bound. -/
theorem Site.Ordered.ready {w : Site} {later : List String} (ho : w.Ordered later) {x : String}
    (hx : x ∉ later) {d : Nat} {scope : StaticScope} (hs : w.scopes[d]? = some scope)
    (hc : scope.contains x = true) : scope.get? x = some true := by
  obtain ⟨ready, hr⟩ := Option.isSome_iff_exists.mp hc
  cases ready with
  | true => exact hr
  | false => exact absurd (ho.pending x d ⟨scope, hs, hr⟩) hx

section

variable {settings : Settings} {roots : List Root} {ν ν' : Naming} {v : Visit} {w : Site}
  {ρ : Display} {h : Heap} {later : List String} {x : String}

/-- An environment has no name that its scope neither holds nor declares later. -/
theorem Fits.not_has (hf : Fits v w ρ) (ho : w.Ordered later) (hn : ρ.map ν = w.names)
    (hl : Later settings roots ν v.heap ν' h) (hx : x ∉ later) (hd : x ∉ w.node.declared)
    {i : Nat} {env : EnvId} (he : ρ[i]? = some env)
    (hc : ∀ scope, w.scopes[i]? = some scope → scope.contains x = false) : ¬ h.Has env x := by
  intro hhas
  have hmem := List.mem_of_getElem? he
  have hnamed := hl.known.named env x (hf.chain.ne_globals env hmem) hhas
  rw [hl.keeps env (hf.chain.mem_lt_size env hmem)] at hnamed
  have hnames : w.names[i]? = some (ν env) := by
    rw [← hn, List.getElem?_map, he]
    rfl
  have hlt : i < w.scopes.length := by
    rw [hf.ready.length_eq]
    exact (List.getElem?_eq_some_iff.mp he).1
  have hs : w.scopes[i]? = some w.scopes[i] := List.getElem?_eq_getElem hlt
  rcases ho.accounted.at hs hnames x hnamed with h' | h'
  · rw [hc _ hs] at h'
    cases h'
  · exact (List.mem_append.mp h').elim hd hx

/-- Where the lookup of a name from the environment at hand ends. -/
theorem Fits.lookup (hf : Fits v w ρ) (ho : w.Ordered later) (hn : ρ.map ν = w.names)
    (hl : Later settings roots ν v.heap ν' h) (hx : x ∉ later) (hd : x ∉ w.node.declared) :
    match bindingOf x w.scopes with
    | .local d => ∃ env, ρ[d]? = some env ∧ h.Has env x ∧
        h.get? ρ.env x = (h.slots env).get? x ∧
        h.holder? x (ρ.env.index + 1) ρ.env = some env
    | .global => h.get? ρ.env x = h.get? .globals x ∧
        h.holder? x (ρ.env.index + 1) ρ.env =
          h.holder? x (EnvId.globals.index + 1) .globals := by
  have hchain := hf.chain.mono hl.grows
  have hbound : ρ.length < ρ.env.index + 1 := Nat.lt_succ_of_le hchain.length_le
  cases hb : bindingOf x w.scopes with
  | global =>
    refine hchain.find?_of_none hbound fun env he => ?_
    obtain ⟨i, hi⟩ := List.mem_iff_getElem?.mp he
    exact hf.not_has ho hn hl hx hd hi fun scope hs =>
      bindingOf_eq_global.mp hb scope (List.mem_of_getElem? hs)
  | «local» d =>
    obtain ⟨⟨scope, hs, hc⟩, hcloser⟩ := holds_of_bindingOf hb
    obtain ⟨env, he, hready⟩ := Ready.at hf.ready hs
    have hhas : h.Has env x := hl.grows.has env x (hready x (ho.ready hx hs hc))
    obtain ⟨hfind, hholder⟩ := hchain.find?_of_closest hbound he hhas fun i e hi he' =>
      hf.not_has ho hn hl hx hd he' fun scope hs => hcloser i scope hi hs
    exact ⟨env, he, hhas, hfind, hholder⟩

variable (hb : settings.lookup = .bound) (hf : Fits v w ρ) (ho : w.Ordered later)
  (hn : ρ.map ν = w.names)
include hb hf ho hn

/-- Reading by name and reading what a name is bound to is the same. -/
theorem read_byName {m : Machine} (hl : Later settings roots ν v.heap ν' m.heap) {name : Name}
    (hx : name.text ∉ later) (hd : name.text ∉ w.node.declared) :
    read settings.byName ρ.env name (bindingOf name.text w.scopes) m =
      read settings ρ.env name (bindingOf name.text w.scopes) m := by
  have hlookup := hf.lookup ho hn hl hx hd
  have hchain := hf.chain.mono hl.grows
  show readByName ρ.env name m = _
  unfold Run.read
  rw [hb]
  cases hbinding : bindingOf name.text w.scopes with
  | global =>
    rw [hbinding] at hlookup
    show readByName ρ.env name m = readByName .globals name m
    unfold readByName
    rw [hlookup.1]
  | «local» d =>
    rw [hbinding] at hlookup
    obtain ⟨env, he, hhas, hfind, -⟩ := hlookup
    obtain ⟨a, hread, ha⟩ := readAt_eq_ok hchain he hhas
    show readByName ρ.env name m = readAt ρ.env d name.text m
    unfold readByName
    rw [hread, hfind, ha]

theorem write_byName {m : Machine} (hl : Later settings roots ν v.heap ν' m.heap) {name : Name}
    (hx : name.text ∉ later) (hd : name.text ∉ w.node.declared) (a : Value) :
    write settings.byName ρ.env name (bindingOf name.text w.scopes) a m =
      write settings ρ.env name (bindingOf name.text w.scopes) a m := by
  have hlookup := hf.lookup ho hn hl hx hd
  have hchain := hf.chain.mono hl.grows
  show writeByName ρ.env name a m = _
  unfold Run.write
  rw [hb]
  cases hbinding : bindingOf name.text w.scopes with
  | global =>
    rw [hbinding] at hlookup
    show writeByName ρ.env name a m = writeByName .globals name a m
    unfold writeByName
    rw [hlookup.2]
  | «local» d =>
    rw [hbinding] at hlookup
    obtain ⟨env, he, -, -, hholder⟩ := hlookup
    show writeByName ρ.env name a m = writeAt ρ.env d name.text a m
    unfold writeByName writeAt
    rw [hholder, hchain.ancestorEnv he]

end

/-! ## Evaluations -/

section

variable {settings : Settings} {roots runs : List Root} {ν : Naming} {v : Visit} {w : Site}
  {ρ : Display} {later : List String}
  {child : (depth : Nat) → (code : Code) → Run code.Result}
  (hb : settings.lookup = .bound) (hroots : ∀ r ∈ roots, r.Accepted)
  (ht : Traced settings roots runs ν v w ρ) (ho : w.Ordered later)
include hb hroots ht ho

/-- One level of the evaluation of an expression, if the value of an assignment is
found first. -/
theorem Traced.follow_expr_byName {e : Expr Binding} (hr : w.resolved = .expr e)
    (hvalue : ∀ target value a m, e = .assign target value →
      child v.depth (.node ρ.env (.expr value)) v.machine = .ok a m →
      ∃ ν', Later settings roots ν v.heap ν' m.heap) :
    (e.plan settings.byName v.depth ρ.env).follow child v.machine =
      (e.plan settings v.depth ρ.env).follow child v.machine := by
  have hf := ht.fits hroots
  have hl := Later.refl ht.heap
  have hd : ∀ x, x ∉ w.node.declared := by
    obtain ⟨e', hnode, -⟩ := w.expr_of_resolved hr
    rw [hnode]
    exact fun x hx => nomatch hx
  cases e with
  | «variable» target =>
    have hread : w.resolved.read? = some (target.name, target.binding) := by rw [hr]; rfl
    simp only [Expr.plan, Plan.follow_lift, (hf.sound.read hread).1]
    exact read_byName hb hf ho ht.names hl (ho.not_mem_of_read hread) (hd _)
  | this line binding =>
    obtain ⟨d, rfl, hnearest⟩ := hf.sound.this hr
    have hthis : read settings.byName ρ.env ⟨"this", line⟩ (bindingOf "this" w.scopes) v.machine =
        read settings ρ.env ⟨"this", line⟩ (bindingOf "this" w.scopes) v.machine :=
      read_byName hb hf ho ht.names hl ho.ordinary (hd _)
    rw [hnearest.bindingOf] at hthis
    simp only [Expr.plan, Plan.follow_lift]
    exact hthis
  | assign target value =>
    obtain ⟨hbinding, -⟩ := hf.sound.assign hr
    have hx := ho.not_mem_of_assign hr
    simp only [Expr.plan, Plan.follow_bind, bind_apply]
    have hchild : (Plan.expr 0 v.depth ρ.env value).follow child v.machine =
        child v.depth (.node ρ.env (.expr value)) v.machine := by
      simp [Plan.expr, Plan.follow]
    rw [hchild]
    cases hrun : child v.depth (.node ρ.env (.expr value)) v.machine with
    | error error m => rfl
    | ok a m =>
      obtain ⟨ν', hl'⟩ := hvalue target value a m rfl hrun
      simp only [Plan.follow_lift, hbinding]
      rw [write_byName hb hf ho ht.names hl' hx (hd _)]
  | _ => rfl

theorem Traced.follow_stmt_byName {s : Stmt Binding} (hr : w.resolved = .stmt s) :
    (s.plan settings.byName v.depth ρ.env).follow child v.machine =
      (s.plan settings v.depth ρ.env).follow child v.machine := by
  have hf := ht.fits hroots
  have hl := Later.refl ht.heap
  cases s with
  | classDecl name parent methods =>
    have hsuper : superclassOf settings.byName ρ.env parent v.machine =
        superclassOf settings ρ.env parent v.machine := by
      cases parent with
      | none => rfl
      | some parent =>
        have hread : w.resolved.read? = some (parent.name, parent.binding) := by rw [hr]; rfl
        have hd : parent.name.text ∉ w.node.declared := by
          rcases w.node_of_read hread with ⟨hnode, -⟩ | ⟨word, methods', hnode, -⟩
          · rw [hnode]
            exact nofun
          · rw [hnode]
            intro hmem
            exact (hf.sound.superclass hnode).1 (List.mem_singleton.mp hmem).symm
        have hsame := read_byName hb hf ho ht.names hl (ho.not_mem_of_read hread) hd
        rw [← (hf.sound.read hread).1] at hsame
        simp only [superclassOf, bind_apply, hsame]
    have hclass : declareClass settings.byName ρ.env name parent methods v.machine =
        declareClass settings ρ.env name parent methods v.machine := by
      unfold declareClass
      rw [bind_apply, bind_apply, hsuper]
      rfl
    simp only [Stmt.plan, Plan.follow_bind, bind_apply, Plan.follow_lift, hclass]
  | var name initializer => cases initializer <;> rfl
  | returnStmt line value => cases value <;> rfl
  | _ => rfl

end

section

variable {settings : Settings} {roots runs : List Root}

/-- Evaluation in an ordered program is the same for both ways to look names up. -/
theorem Visit.Known.run_byName (hroots : ∀ r ∈ roots, r.Accepted) (hsub : runs ⊆ roots)
    (hb : settings.lookup = .bound) (hordered : ∀ r ∈ roots, r.program.ordered = true) :
    ∀ (fuel : Nat) (v : Visit) (ν : Naming), v.fuel = fuel → v.Known settings roots runs ν →
      v.run settings.byName = v.run settings := by
  intro fuel
  induction fuel with
  | zero =>
    intro v ν hfuel _
    rw [Visit.run, Visit.run, hfuel, Code.run_zero, Code.run_zero]
  | succ fuel ih =>
    intro v ν hfuel hv
    -- The visits that the plan comes to agree by induction.
    have hcalls : ∀ i depth code m,
        (v.code.plan settings v.depth).Meets (Code.run settings fuel) v.machine i depth code m →
        code.run settings.byName fuel depth m = code.run settings fuel depth m := by
      intro i depth code m hm
      have hs : v.Starts settings i ⟨fuel, depth, code, m⟩ := ⟨hfuel, hm⟩
      obtain ⟨ν', hk⟩ := hv.starts hroots hsub hb hs
      exact ih _ ν' rfl hk
    have hplan : (v.code.plan settings.byName v.depth).follow (Code.run settings.byName fuel)
        v.machine =
          (v.code.plan settings v.depth).follow (Code.run settings.byName fuel) v.machine := by
      obtain ⟨hreached, hk, hcode⟩ := id hv
      obtain ⟨fuel', depth, code, m⟩ := v
      cases code with
      | node env n =>
        obtain ⟨w, ρ, hl, hn⟩ := hcode
        have ht : Traced settings roots runs ν ⟨fuel', depth, .node env n, m⟩ w ρ :=
          ⟨hreached, hk, hl, hn⟩
        obtain ⟨rfl, hr⟩ := Code.node.inj (ht.fits hroots).code
        obtain ⟨r, hmem, hw⟩ := hl.within hroots
        obtain ⟨later, ho⟩ := Within.ordered (hroots r hmem).legal (hroots r hmem).accepted
          (hordered r hmem) hw
        cases n with
        | expr e =>
          refine ht.follow_expr_byName hb hroots ho hr.symm fun target value a m' he hrun => ?_
          subst he
          have hknown := ht.known_of_parts hroots (Later.refl hk) (by rw [← hr]; rfl) fuel
            (i := 0) (n := .expr value) ⟨hfuel, .here ..⟩
          have hend := hknown.run hroots hsub hb fuel _ ν rfl
          have hsame : (Code.node ρ.env (.expr value)).run settings fuel depth m = .ok a m' :=
            (hcalls 0 depth (.node ρ.env (.expr value)) m (.here ..)).symm.trans hrun
          rw [Visit.run, hsame] at hend
          obtain ⟨ν', hl', -⟩ := hend
          exact ⟨ν', hl'⟩
        | stmt s => exact ht.follow_stmt_byName hb hroots ho hr.symm
        | _ => rfl
      | _ => rfl
    rw [Visit.run, Visit.run, hfuel, Code.run_succ, Code.run_succ, hplan]
    exact Plan.follow_congr fun i depth code m hm => hcalls i depth code m hm

end

end ClassScript
