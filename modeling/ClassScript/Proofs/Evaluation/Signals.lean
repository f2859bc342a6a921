import ClassScript.Proofs.Evaluation.Visit

/-!
# Signals

A statement that does not complete normally gives a *signal*: it completes by `break` or
by `return`.  One level of an evaluation relays signals (`Plan.Relays`): a signal of a part
ends it at once, in the machine in which the part ends, and a signal comes from nowhere
else but from a `break` or a `return` at hand.

*Up.*  The signal of a part is that of the whole (`Visit.Starts.hands`), except that a loop
takes the `break` of its body and completes normally.

*Down.*  A signal of the whole is that of a part (`Visit.Completes.source`), so loops never
complete by `break` (`Visit.Completes.not_broke_of_isLoop`).
-/

namespace ClassScript

open Run

/-! ## Completions -/

/-- How a code completes, by the result of its evaluation. -/
def Code.completion : (code : Code) → code.Result → Completion
  | .node _ (.stmt _), c => c
  | .node _ (.stmts _), c => c
  | .node _ (.elifs _ _), c => c
  | .node _ (.loop _ _), c => c
  | .node _ (.expr _), _ => .normal
  | .node _ (.exprs _), _ => .normal
  | .invoke _ _, _ => .normal
  | .closure _ _, _ => .normal

/-- The visit completes so, with the machine at its end. -/
def Visit.Completes (settings : Settings) (v : Visit) (c : Completion) (m : Machine) : Prop :=
  ∃ a, v.run settings = .ok a m ∧ v.code.completion a = c

/-- The codes that give a signal of their own. -/
inductive Code.Signals : Code → Completion → Prop where
  | broke (env : EnvId) (line : Nat) : Signals (.node env (.stmt (.breakStmt line))) .broke
  | returned (env : EnvId) (line : Nat) (value : Option (Expr Binding)) (a : Value) :
      Signals (.node env (.stmt (.returnStmt line value))) (.returned a)

/-- A round of a loop. -/
def Code.IsLoop : Code → Prop
  | .node _ (.loop _ _) => True
  | _ => False

/-- What a code makes of the completion of its part.  A loop takes the `break` of its
body. -/
def Code.taken : Code → (part : Nat) → Completion → Completion
  | .node _ (.loop _ _), 1, .broke => .normal
  | _, _, c => c

/-! ## Plans that relay -/

/-- A plan for which `prev` is the completion of the last part relays signals: one of a
part ends it with what is made of the signal, and it ends with no other signal than one
of its last part.  The next round of a loop ends it in any case. -/
def Plan.Relays (taken : Nat → Completion → Completion) (prev : Completion) :
    Plan Completion → Prop
  | finish c => c = .normal ∨ c = prev
  | act _ next => ∀ b, Relays taken .normal (next b)
  | call i _ code next => ∀ b,
      (code.completion b = .normal ∧ ¬ code.IsLoop ∨
        next b = .finish (taken i (code.completion b))) ∧
        Relays taken (code.completion b) (next b)

variable (settings : Settings) (depth : Nat) (env : EnvId)

theorem Stmt.plan_relays (s : Stmt Binding) (hs : ∀ c, ¬ (Code.node env (.stmt s)).Signals c) :
    (s.plan settings depth env).Relays (Code.node env (.stmt s)).taken .normal := by
  cases s with
  | expression value => exact fun _ => ⟨.inl ⟨rfl, id⟩, .inl rfl⟩
  | print value => exact fun _ => ⟨.inl ⟨rfl, id⟩, fun _ => .inl rfl⟩
  | var name initializer =>
    cases initializer with
    | none => exact fun _ => .inl rfl
    | some value => exact fun _ => ⟨.inl ⟨rfl, id⟩, fun _ => .inl rfl⟩
  | block body => exact fun _ _ => ⟨.inr rfl, .inr rfl⟩
  | ifStmt condition thenBranch elifs elseBranch =>
    refine fun a => ⟨.inl ⟨rfl, id⟩, fun _ => ?_⟩
    cases a.isTruthy <;> exact fun _ => ⟨.inr rfl, .inr rfl⟩
  | whileStmt condition body => exact fun _ => ⟨.inr rfl, .inr rfl⟩
  | functionDecl f => exact fun _ => .inl rfl
  | returnStmt line value => exact absurd (.returned env line value .nil) (hs _)
  | breakStmt line => exact absurd (.broke env line) (hs _)
  | classDecl name superclass methods => exact fun _ => .inl rfl

namespace Plan

theorem relays_ofStmts (body : List (Stmt Binding)) :
    (ofStmts depth env body).Relays (Code.node env (.stmts body)).taken .normal := by
  cases body with
  | nil => exact .inl rfl
  | cons s rest =>
    intro c
    cases c with
    | normal => exact ⟨.inl ⟨rfl, id⟩, fun _ => ⟨.inr rfl, .inr rfl⟩⟩
    | broke => exact ⟨.inr rfl, .inr rfl⟩
    | returned a => exact ⟨.inr rfl, .inr rfl⟩

theorem relays_ofElifs (branches : List (Elif Binding)) (elseBranch : Option (Stmt Binding)) :
    (ofElifs depth env branches elseBranch).Relays
      (Code.node env (.elifs branches elseBranch)).taken .normal := by
  rcases branches with _ | ⟨⟨condition, body⟩, rest⟩
  · cases elseBranch with
    | none => exact .inl rfl
    | some s => exact fun _ => ⟨.inr rfl, .inr rfl⟩
  · refine fun a => ⟨.inl ⟨rfl, id⟩, ?_⟩
    show Relays _ _ (if a.isTruthy then _ else _)
    cases a.isTruthy <;> exact fun _ => ⟨.inr rfl, .inr rfl⟩

/-- A loop takes the `break` of its body. -/
theorem relays_ofLoop (condition : Expr Binding) (body : Stmt Binding) :
    (ofLoop settings depth env condition body).Relays
      (Code.node env (.loop condition body)).taken .normal := by
  refine fun a => ⟨.inl ⟨rfl, id⟩, fun _ => ?_⟩
  show Relays _ _ (if !a.isTruthy then _ else _)
  cases a.isTruthy with
  | false => exact .inl rfl
  | true =>
    intro c
    cases c with
    | normal => exact ⟨.inl ⟨rfl, id⟩, fun _ => ⟨.inr rfl, .inr rfl⟩⟩
    | broke => exact ⟨.inr rfl, .inl rfl⟩
    | returned a => exact ⟨.inr rfl, .inr rfl⟩

variable {child : (depth : Nat) → (code : Code) → Run code.Result}
  {taken : Nat → Completion → Completion} {p : Plan Completion} {prev c : Completion}
  {m m' m₁ : Machine}

/-- The signal of a part ends the plan, and so does the next round of a loop. -/
theorem Relays.hands (hp : p.Relays taken prev) {i depth : Nat} {code : Code}
    (hm : p.Meets child m i depth code m₁) {b : code.Result} (hb : child depth code m₁ = .ok b m')
    (hc : code.completion b ≠ .normal ∨ code.IsLoop) :
    p.follow child m = .ok (taken i (code.completion b)) m' := by
  induction hm generalizing prev with
  | here i depth code next m =>
    have hnext := (hp b).1.resolve_left fun h => hc.elim (· h.1) h.2
    exact bind_eq_ok.mpr ⟨b, m', hb, by rw [hnext]; rfl⟩
  | act hs _ ih => exact bind_eq_ok.mpr ⟨_, _, hs, ih (hp _) hb hc⟩
  | call hs _ ih => exact bind_eq_ok.mpr ⟨_, _, hs, ih (hp _).2 hb hc⟩

/-- A signal of the plan is that of a part, which ends with the same machine. -/
theorem Relays.source (hp : p.Relays taken prev) (h : p.follow child m = .ok c m')
    (hc : c ≠ .normal) :
    (c = prev ∧ m = m') ∨ ∃ i depth code m₁ b, p.Meets child m i depth code m₁ ∧
      child depth code m₁ = .ok b m' ∧ code.completion b = c := by
  induction p generalizing m prev with
  | finish a =>
    cases h
    exact .inl ⟨hp.resolve_left hc, rfl⟩
  | act step next ih =>
    obtain ⟨b, m₁, hs, hrest⟩ := bind_eq_ok.mp h
    obtain ⟨rfl, -⟩ | ⟨i, depth, code, m₂, a, hm, ha⟩ := ih b (hp b) hrest
    · exact absurd rfl hc
    · exact .inr ⟨i, depth, code, m₂, a, .act hs hm, ha⟩
  | call i depth code next ih =>
    obtain ⟨b, m₁, hs, hrest⟩ := bind_eq_ok.mp h
    obtain ⟨rfl, rfl⟩ | ⟨i', depth', code', m₂, a, hm, ha⟩ := ih b (hp b).2 hrest
    · exact .inr ⟨i, depth, code, m, b, .here .., hs, rfl⟩
    · exact .inr ⟨i', depth', code', m₂, a, .call hs hm, ha⟩

/-- A part that aborts aborts the whole. -/
theorem Meets.error {α : Type} {p : Plan α} {i depth : Nat} {code : Code} {e : Abort}
    (hm : p.Meets child m i depth code m₁) (he : child depth code m₁ = .error e m') :
    p.follow child m = .error e m' := by
  induction hm with
  | here i depth code next m => rw [follow, bind_apply, he]
  | act hs _ ih =>
    rw [follow, bind_apply, hs]
    exact ih he
  | call hs _ ih =>
    rw [follow, bind_apply, hs]
    exact ih he

end Plan

/-! ## Visits -/

theorem Code.completion_of_isExpr {env : EnvId} {n : Node Binding} (hn : n.IsExpr)
    (a : (Code.node env n).Result) :
    (Code.node env n).completion a = .normal ∧ ¬ (Code.node env n).IsLoop := by
  cases n with
  | expr e => exact ⟨rfl, id⟩
  | exprs es => exact ⟨rfl, id⟩
  | _ => cases hn

/-- What an expression starts completes normally, and so does what a `return` starts. -/
theorem Code.Calls.completion_of_isExpr {env : EnvId} {n : Node Binding} {i : Nat} {code : Code}
    (hn : ∀ n' ∈ n.parts, n'.IsExpr) (hblock : ∀ body, n ≠ .stmt (.block body))
    (h : (Code.node env n).Calls i code) (a : code.Result) :
    code.completion a = .normal ∧ ¬ code.IsLoop := by
  cases h with
  | part hpart => exact Code.completion_of_isExpr (hn _ (List.mem_of_getElem? hpart)) a
  | block env inner body => exact absurd rfl (hblock body)
  | invoke env callee line arguments f values => exact ⟨rfl, id⟩

theorem Code.eq_loop {code : Code} (h : code.IsLoop) :
    ∃ env condition body, code = .node env (.loop condition body) := by
  unfold Code.IsLoop at h
  split at h
  · exact ⟨_, _, _, rfl⟩
  · cases h

/-- What a node starts that is neither a block nor a call is one of its parts. -/
theorem Code.Calls.part_of_node {code code' : Code} {env : EnvId} {n : Node Binding} {i : Nat}
    (h : code.Calls i code') (hn : code = .node env n) (hblock : ∀ body, n ≠ .stmt (.block body))
    (hcall : ∀ callee line arguments, n ≠ .expr (.call callee line arguments)) :
    ∃ n', n.parts[i]? = some n' ∧ code' = .node env n' := by
  cases h with
  | part hpart =>
    cases hn
    exact ⟨_, hpart, rfl⟩
  | block env inner body =>
    cases hn
    exact absurd rfl (hblock body)
  | invoke env callee line arguments f values =>
    cases hn
    exact absurd rfl (hcall callee line arguments)
  | closure f code values => cases hn
  | body code values env => cases hn

namespace Visit

variable {settings : Settings} {v v' : Visit} {i : Nat} {c : Completion} {m : Machine}

theorem completes_of_follow {n : Nat} (hfuel : v.fuel = n + 1) {a : v.code.Result}
    (h : (v.code.plan settings v.depth).follow (Code.run settings n) v.machine = .ok a m) :
    v.Completes settings (v.code.completion a) m := by
  refine ⟨a, ?_, rfl⟩
  rw [Visit.run, hfuel, Code.run_succ]
  exact h

/-- A visit that aborts aborts the one that starts it. -/
theorem Starts.error (hs : v.Starts settings i v') {e : Abort}
    (he : v'.run settings = .error e m) : v.run settings = .error e m := by
  rw [Visit.run, hs.1, Code.run_succ]
  exact hs.2.error he

/-- The signal of a part of a node is that of the whole, but for the `break` that a loop
takes.  The next round of a loop completes the whole in any case. -/
theorem Starts.hands (hs : v.Starts settings i v') {env : EnvId} {n : Node Binding}
    (hn : v.code = .node env n) (h : v'.Completes settings c m)
    (hc : c ≠ .normal ∨ v'.code.IsLoop) : v.Completes settings (v.code.taken i c) m := by
  obtain ⟨b, hb, rfl⟩ := h
  have hcalls := hs.calls
  obtain ⟨fuel, depth, code, m₀⟩ := v
  obtain rfl : code = .node env n := hn
  have hno {n' : Node Binding} (hn : n = n') (hparts : ∀ n ∈ n'.parts, n.IsExpr)
      (hblock : ∀ body, n' ≠ .stmt (.block body)) : False := by
    subst hn
    obtain ⟨hnormal, hloop⟩ := hcalls.completion_of_isExpr hparts hblock b
    exact hc.elim (· hnormal) hloop
  cases n with
  | expr e => exact (hno rfl (Node.isExpr_of_mem_parts trivial) nofun).elim
  | exprs es => exact (hno rfl (Node.isExpr_of_mem_parts trivial) nofun).elim
  | stmt s =>
    have hsignals : ∀ c, ¬ (Code.node env (.stmt s)).Signals c := by
      rintro c (_ | _)
      · exact hno rfl nofun nofun
      · rename_i line value _
        exact hno rfl (by cases value <;> simp [Node.parts, Stmt.parts, Node.IsExpr]) nofun
    exact completes_of_follow hs.1 ((s.plan_relays settings depth env hsignals).hands hs.2 hb hc)
  | stmts body =>
    exact completes_of_follow hs.1 ((Plan.relays_ofStmts depth env body).hands hs.2 hb hc)
  | elifs branches elseBranch =>
    exact completes_of_follow hs.1
      ((Plan.relays_ofElifs depth env branches elseBranch).hands hs.2 hb hc)
  | loop condition body =>
    exact completes_of_follow hs.1
      ((Plan.relays_ofLoop settings depth env condition body).hands hs.2 hb hc)

/-- A signal that ends a plan of relays is that of a part. -/
theorem starts_of_relays {n : Nat} {taken : Nat → Completion → Completion}
    {p : Plan Completion} {m₀ : Machine} (hp : p.Relays taken .normal)
    (h : p.follow (Code.run settings n) m₀ = .ok c m) (hc : c ≠ .normal) :
    ∃ (i : Nat) (v' : Visit), v'.fuel = n ∧
      p.Meets (Code.run settings n) m₀ i v'.depth v'.code v'.machine ∧
      v'.Completes settings c m := by
  obtain ⟨rfl, -⟩ | ⟨i, depth, code, m₁, b, hm, hb, hcompletion⟩ := hp.source h hc
  · exact absurd rfl hc
  · exact ⟨i, ⟨n, depth, code, m₁⟩, rfl, hm, b, hb, hcompletion⟩

/-- A signal of a visit that gives none of its own is that of a part. -/
theorem Completes.source (h : v.Completes settings c m) (hc : c ≠ .normal) :
    v.code.Signals c ∨ ∃ i v', v.Starts settings i v' ∧ v'.Completes settings c m := by
  obtain ⟨a, ha, hcompletion⟩ := h
  obtain ⟨fuel, depth, code, m₀⟩ := v
  rw [Visit.run] at ha
  cases fuel with
  | zero =>
    rw [Code.run_zero] at ha
    cases ha
  | succ fuel =>
    rw [Code.run_succ] at ha
    -- Only statements have a completion of their own.
    suffices hrelays : code.Signals c ∨ ∃ (i : Nat) (v' : Visit), v'.fuel = fuel ∧
        (code.plan settings depth).Meets (Code.run settings fuel) m₀ i v'.depth v'.code
          v'.machine ∧ v'.Completes settings c m by
      obtain hsignals | ⟨i, v', rfl, hm, hc'⟩ := hrelays
      · exact .inl hsignals
      · exact .inr ⟨i, v', ⟨rfl, hm⟩, hc'⟩
    rcases code with ⟨env, n⟩ | _ | _
    · cases n with
      | expr e => exact absurd hcompletion.symm hc
      | exprs es => exact absurd hcompletion.symm hc
      | stmt s =>
        subst hcompletion
        by_cases hsignals : ∃ c, (Code.node env (.stmt s)).Signals c
        · obtain ⟨c', hsignals⟩ := hsignals
          rcases hsignals with _ | ⟨_, line, value, _⟩
          · cases ha
            exact .inl (.broke ..)
          · cases value with
            | none =>
              cases ha
              exact .inl (.returned ..)
            | some value =>
              obtain ⟨a, m₁, -, hrest⟩ := bind_eq_ok.mp ha
              cases hrest
              exact .inl (.returned ..)
        · rw [not_exists] at hsignals
          exact .inr (starts_of_relays (s.plan_relays settings depth env hsignals) ha hc)
      | stmts body =>
        subst hcompletion
        exact .inr (starts_of_relays (Plan.relays_ofStmts depth env body) ha hc)
      | elifs branches elseBranch =>
        subst hcompletion
        exact .inr (starts_of_relays (Plan.relays_ofElifs depth env branches elseBranch) ha hc)
      | loop condition body =>
        subst hcompletion
        exact .inr (starts_of_relays (Plan.relays_ofLoop settings depth env condition body) ha hc)
    · exact absurd hcompletion.symm hc
    · exact absurd hcompletion.symm hc

theorem Completes.unique {c' : Completion} {m' : Machine} (h : v.Completes settings c m)
    (h' : v.Completes settings c' m') : c = c' ∧ m = m' := by
  obtain ⟨a, ha, rfl⟩ := h
  obtain ⟨b, hb, rfl⟩ := h'
  rw [ha] at hb
  cases hb
  exact ⟨rfl, rfl⟩

theorem Completes.normal_of_isExpr {env : EnvId} {n : Node Binding} (h : v.Completes settings c m)
    (hn : v.code = .node env n) (hexpr : n.IsExpr) : c = .normal := by
  obtain ⟨a, -, rfl⟩ := h
  obtain ⟨fuel, depth, code, m₀⟩ := v
  obtain rfl : code = .node env n := hn
  exact (Code.completion_of_isExpr hexpr a).1

/-- A loop never completes by `break`. -/
theorem Completes.not_broke_of_isLoop (hl : v.code.IsLoop) : ¬ v.Completes settings .broke m := by
  intro h
  induction hfuel : v.fuel generalizing v with
  | zero =>
    obtain ⟨a, ha, -⟩ := h
    rw [Visit.run, hfuel, Code.run_zero] at ha
    cases ha
  | succ n ih =>
    obtain ⟨env, condition, body, hcode⟩ := Code.eq_loop hl
    have hbroke : Completion.broke ≠ .normal := by simp
    obtain hsignals | ⟨i, v', hs, h'⟩ := h.source hbroke
    · rw [hcode] at hsignals
      cases hsignals
    · have htaken := hs.hands hcode h' (.inl hbroke)
      obtain ⟨n', hn', hc'⟩ := hs.calls.part_of_node hcode (by simp) (by simp)
      rw [hcode] at htaken
      rcases i with _ | _ | _ | i
      · cases hn'
        exact absurd (h'.normal_of_isExpr hc' trivial) hbroke
      · exact absurd (h.unique htaken).1 hbroke
      · cases hn'
        exact ih (by rw [hc']; trivial) h' (by have := hs.1; omega)
      · cases hn'

end Visit

end ClassScript
