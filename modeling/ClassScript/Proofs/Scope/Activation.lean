import ClassScript.Proofs.Evaluation.Transfer
import ClassScript.Proofs.Scope.Provenance

/-!
# Sites of an activation

A visit in lockstep with a site leads to the visits of its own activation through parts
and blocks of the site (`Lockstep.node`).  So what encloses the site is the same for all
of them (`Lockstep.executes`), and a `return` can only be executed where the rules for
names allow one (`Site.Sound.not_topLevel`).  No statement of a program completes by one
(`Root.Comes.not_returned`).
-/

namespace ClassScript

open Resolution Run

variable {settings : Settings} {roots : List Root} {v v' u : Visit} {w : Site} {ρ : Display}
  {i : Nat}

/-- A node that a node starts is one of its parts or the body of its block. -/
theorem Lockstep.node (hroots : ∀ r ∈ roots, r.Accepted) (hl : Lockstep settings roots v w ρ)
    (hs : v.Starts settings i v') (hn : v'.code.IsNode) :
    (∃ w', w.parts[i]? = some w' ∧ Lockstep settings roots v' w' ρ) ∨
      ∃ w', w.block? = some w' ∧ Lockstep settings roots v' w' (v.heap.nextEnv :: ρ) := by
  obtain ⟨env', n', hcode'⟩ := hn.eq
  have hcode := (hl.fits hroots).code
  have hcalls := hs.calls
  rw [hcode, hcode'] at hcalls
  generalize hr : w.resolved = n at hcalls
  cases hcalls with
  | part hpart =>
    rw [← hr, ← w.map_resolved_parts, List.getElem?_map] at hpart
    obtain ⟨w', hw, -⟩ := Option.map_eq_some_iff.mp hpart
    exact .inl ⟨w', hw, .part hl hs hw⟩
  | block env inner body =>
    obtain ⟨w', -, hw, -⟩ := Site.block?_of_block hr
    exact .inr ⟨w', hw, .block hl hs hw⟩

theorem Site.context_of_block? {w w' : Site} (h : w.block? = some w') : w'.context = w.context := by
  unfold Site.block? at h
  split at h
  · cases h
    rfl
  · cases h

/-- The visits of one activation are in lockstep with sites that the same encloses. -/
theorem Lockstep.executes (hroots : ∀ r ∈ roots, r.Accepted) (hl : Lockstep settings roots v w ρ)
    (hu : v.Executes settings u) :
    ∃ w' ρ', Lockstep settings roots u w' ρ' ∧ w'.context = w.context := by
  induction hu generalizing w ρ with
  | refl v => exact ⟨w, ρ, hl, rfl⟩
  | @step i v v' u hs hp _ ih =>
    obtain ⟨w', hw, hl'⟩ | ⟨w', hw, hl'⟩ := hl.node hroots hs hp
    · obtain ⟨w'', ρ'', hu, hc⟩ := ih hl'
      have hpart := Site.partOf_of_mem_parts (hl.fits hroots).sound.legal (List.mem_of_getElem? hw)
      exact ⟨w'', ρ'', hu, hc.trans hpart.1.context⟩
    · obtain ⟨w'', ρ'', hu, hc⟩ := ih hl'
      exact ⟨w'', ρ'', hu, hc.trans (Site.context_of_block? hw)⟩

theorem checkReturn_topLevel (enclosingClass : ClassContext) (line : Nat) (hasValue : Bool) :
    checkReturn ⟨.topLevel, enclosingClass⟩ line hasValue =
      report ⟨"return", line⟩ .returnAtTopLevel := by
  unfold checkReturn
  simp

/-- No `return` is accepted at the top level. -/
theorem Site.Sound.not_topLevel (hs : w.Sound) {line : Nat} {value : Option (Expr Unit)}
    (hn : w.node = .stmt (.returnStmt line value)) : w.context.function ≠ .topLevel := by
  intro htop
  have ha := hs.accepted
  have hl := hs.legal
  obtain ⟨⟨kind, enclosingClass⟩, names, node, state⟩ := w
  obtain rfl : node = .stmt (.returnStmt line value) := hn
  obtain rfl : kind = .topLevel := htop
  cases value with
  | none =>
    have hreport : (checkReturn ⟨.topLevel, enclosingClass⟩ line false state).2.diagnostics = [] :=
      ha
    rw [checkReturn_topLevel] at hreport
    exact (Walks.pure ()).report_ne_nil _ _ state hreport
  | some value =>
    have hreport : (resolveExpr ⟨.topLevel, enclosingClass⟩ value
        (checkReturn ⟨.topLevel, enclosingClass⟩ line true state).2).2.diagnostics = [] := ha
    rw [checkReturn_topLevel] at hreport
    exact (resolveExpr_walks _ value hl).report_ne_nil _ _ state hreport

theorem Site.node_of_isReturn {env : EnvId} (h : (Code.node env w.resolved).IsReturn) :
    ∃ line value, w.node = .stmt (.returnStmt line value) := by
  obtain ⟨line, value, hr⟩ : ∃ line value, w.resolved = .stmt (.returnStmt line value) := by
    unfold Code.IsReturn at h
    split at h
    · next heq => exact ⟨_, _, (Code.node.inj heq).2⟩
    · cases h
  obtain ⟨s, hn, hr⟩ := w.stmt_of_resolved hr
  cases s with
  | returnStmt line' value' => exact ⟨line', value', hn⟩
  | var word initializer => cases initializer <;> cases hr
  | ifStmt condition thenBranch elifs elseBranch => cases elseBranch <;> cases hr
  | functionDecl f => cases f; cases hr
  | _ => cases hr

/-- The statements of a program are at the top level. -/
theorem Root.Comes.context {r : Root} (hr : r.Accepted) {m : Machine}
    (hc : r.Comes settings w m) : w.context.function = .topLevel := by
  induction hc with
  | start => rfl
  | @next w w₁ w₂ m m' a hc hp _ ih =>
    obtain ⟨hw, -, -⟩ := hc.outermost hr
    have hlegal := (hw.sound hr.legal hr.accepted).legal
    rw [(Site.partOf_of_mem_parts hlegal (by simp [hp])).1.context, ih]

/-- No statement of a program completes by `return`. -/
theorem Root.Comes.not_returned (hroots : ∀ r ∈ roots, r.Accepted) {r : Root} (hr : r ∈ roots)
    {w₁ w₂ : Site} {m m' : Machine} (hc : r.Comes settings w m) (hp : w.parts = [w₁, w₂])
    {a : Value} : ¬ (r.visit w₁ m).Completes settings (.returned a) m' := by
  intro h
  obtain ⟨u, hu, hreturn⟩ := h.exists_return
  have hl : Lockstep settings roots (r.visit w₁ m) w₁ [] := .root hr hc hp
  obtain ⟨w', ρ', hl', hcontext⟩ := hl.executes hroots hu
  have hf := hl'.fits hroots
  rw [hf.code] at hreturn
  obtain ⟨line, value, hn⟩ := Site.node_of_isReturn hreturn
  obtain ⟨hw, -, -⟩ := hc.outermost (hroots r hr)
  have hlegal := (hw.sound (hroots r hr).legal (hroots r hr).accepted).legal
  have hmem : w₁ ∈ w.parts := by simp [hp]
  have hpart := (Site.partOf_of_mem_parts hlegal hmem).1.context
  apply hf.sound.not_topLevel hn
  rw [hcontext, hpart, hc.context (hroots r hr)]

end ClassScript
