import ClassScript.Proofs.Scope.Descent
import ClassScript.Proofs.Session.History

/-!
# Scopes and environments of a session

Whenever evaluation works on a node, the environments around it correspond to the
scopes that were open when resolution came to that node (`InStep`).  This holds of
all programs of a history and of every function that lives on in it
(`History.inStep`).
-/

namespace ClassScript

open Resolution Run

/-! ## In step -/

/-- The environments of a visit are in step with the scopes of a site. -/
structure InStep (settings : Settings) (v : Visit) (w : Site) (ρ : Display) : Prop where
  /-- The node at hand is that of the site. -/
  node : v.code = .node ρ.env w.resolved
  /-- There are as many environments around it, up to the globals, as scopes were open. -/
  depth : v.heap.depth (ρ.env.index + 1) ρ.env = w.scopes.length
  /-- That many steps to the parent lead to the globals, which have no parent. -/
  outermost : v.heap.ascend (some ρ.env) w.scopes.length = some (some .globals) ∧
    v.heap.parent? .globals = none
  /-- The distance of a reference leads to the environment that stands for the
  closest scope with its name, also later in the visit. -/
  bound : ∀ x d, w.resolved.reference? = some (x, .local d) →
    (∃ scope, w.scopes[d]? = some scope ∧ scope.contains x = true) ∧
    (∀ i scope, i < d → w.scopes[i]? = some scope → scope.contains x = false) ∧
    ∃ env, ρ[d]? = some env ∧ ∀ h, v.heap.Grows h → h.ancestorEnv ρ.env d = .ok env
  /-- A reference without a distance has a name that no open scope holds. -/
  free : ∀ x, w.resolved.reference? = some (x, .global) →
    ∀ scope ∈ w.scopes, scope.contains x = false
  /-- It is read among the globals alone. -/
  reads : ∀ name m, w.resolved.read? = some (name, .global) →
    read settings ρ.env name .global m =
      match (m.heap.slots .globals).get? name.text with
      | some a => .ok a m
      | none => .error (.failure ⟨.undefinedVariable name.text, name.line⟩) m
  /-- It is assigned to among the globals alone. -/
  writes : ∀ target value a m, w.resolved = .expr (.assign target value) →
    target.binding = .global →
    write settings ρ.env target.name target.binding a m =
      if (m.heap.slots .globals).contains target.name.text then
        .ok () (m.define .globals target.name.text a)
      else .error (.failure ⟨.undefinedVariable target.name.text, target.name.line⟩) m

theorem InStep.of_fits {settings : Settings} {v : Visit} {w : Site} {ρ : Display}
    (hb : settings.lookup = .bound) (hf : Fits v w ρ) : InStep settings v w ρ where
  node := hf.code
  depth := by
    rw [hf.chain.depth_eq (Nat.lt_succ_of_le hf.chain.length_le), hf.ready.length_eq]
  outermost := by
    rw [hf.ready.length_eq]
    exact hf.chain.ascend_length
  bound x d hr := by
    obtain ⟨hscope, hcloser⟩ := holds_of_bindingOf (hf.sound.binding hr).symm
    obtain ⟨scope, hs, hc⟩ := hscope
    obtain ⟨env, he, -⟩ := Ready.at hf.ready hs
    exact ⟨⟨scope, hs, hc⟩, hcloser, env, he, fun h hg => (hf.chain.mono hg).ancestorEnv he⟩
  free x hr := bindingOf_eq_global.mp (hf.sound.binding hr).symm
  reads name m _ := by
    unfold Run.read
    rw [hb]
    show readByName .globals name m = _
    unfold readByName
    cases hget : (m.heap.slots .globals).get? name.text <;> simp only [Heap.get?_globals, hget]
  writes target value a m _ hg := by
    unfold Run.write
    rw [hb, hg]
    show writeByName .globals target.name a m = _
    unfold writeByName
    rw [Heap.holder?_globals]
    split
    · rename_i holder hh
      split at hh
      · rename_i hc
        cases hh
        rw [if_pos hc]
        rfl
      · cases hh
    · rename_i hh
      split at hh
      · cases hh
      · rename_i hc
        rw [if_neg hc]

namespace History

variable {settings : Settings} {s : Session} {roots : List Root}

/-- In every evaluation of a node that the programs of a history come to, at any
point of any run, the environments are in step with the scopes of a site. -/
theorem inStep (hb : settings.lookup = .bound) (hh : History settings s roots) {v : Visit}
    (hv : Reached settings roots v) {env : EnvId} {n : Node Binding}
    (hc : v.code = .node env n) :
    (∃ w ρ, Lockstep settings roots v w ρ) ∧
      ∀ w ρ, Lockstep settings roots v w ρ →
        (∃ r ∈ roots, Within r.program w) ∧ InStep settings v w ρ := by
  have hroots := (hh.invariant hb).1
  refine ⟨?_, fun w ρ hl => ⟨hl.within hroots, InStep.of_fits hb (hl.fits hroots)⟩⟩
  obtain ⟨ν, -, -, hcode⟩ := hh.known hb hv
  rw [hc] at hcode
  obtain ⟨w, ρ, hl, -⟩ := hcode
  exact ⟨w, ρ, hl⟩

/-- A function that was made in a block reads a variable of the block when a later program
calls it. -/
theorem inStep_closure : ∃ s roots v env n,
    History (.standard 0 fun _ => 0) s roots ∧ Reached (.standard 0 fun _ => 0) roots v ∧
      v.code = .node env n ∧ n.reference? = some ("a", .local 1) ∧
      v.heap.depth (env.index + 1) env = 2 ∧
      (∃ w ρ, Lockstep (.standard 0 fun _ => 0) roots v w ρ) ∧
        ∀ w ρ, Lockstep (.standard 0 fun _ => 0) roots v w ρ →
          (∃ r ∈ roots, Within r.program w) ∧ InStep (.standard 0 fun _ => 0) v w ρ := by
  let source := "var g; \x7b var a; fun f() \x7b return a; \x7d g = f; \x7d"
  let s := (Session.start.submit (.standard 0 fun _ => 0) 10 source).session
  have hmakes : Session.start.Accepts source := by
    unfold Session.Accepts
    decide +kernel
  have hcalls : s.Accepts "g();" := by
    unfold Session.Accepts
    decide +kernel
  let roots := [Session.start.root 10 source, s.root 10 "g();"]
  have hh : History (.standard 0 fun _ => 0) (s.submit (.standard 0 fun _ => 0) 10 "g();").session
      roots := .run 10 (.run 10 .start hmakes) hcalls
  -- The way to the variable: the call, the function, its code, its body, `return`.
  obtain ⟨v, hv, ⟨env, n⟩, hn, hreference, hdepth⟩ :
      ∃ v ∈ (s.root 10 "g();").descend? (.standard 0 fun _ => 0) [0, 2, 0, 0, 0, 0],
        ∃ p ∈ v.code.node?, p.2.reference? = some ("a", .local 1) ∧
          v.heap.depth (p.1.index + 1) p.1 = 2 := by
    decide +kernel
  have hreached : Reached (.standard 0 fun _ => 0) roots v :=
    .of_root (List.mem_cons_of_mem _ (List.mem_singleton_self _)) hv
  have hc := Code.eq_of_node? hn
  exact ⟨_, _, v, env, n, hh, hreached, hc, hreference, hdepth, hh.inStep rfl hreached hc⟩

end History

end ClassScript
