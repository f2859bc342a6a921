import ClassScript.Proofs.Evaluation.Signals

/-!
# Transfer of control

*Statically.*  A statement that completes by `break` has a `break` outside of the loops,
functions and classes in it, and one that completes by `return` has a `return` outside of
the functions and classes in it (`Run.breaks_of_execute`, `Run.returns_of_execute`).

*Dynamically.*  The visits that a visit leads to through nodes are those of its own
activation (`Visit.Executes`).  A `return` that an activation executes ends it with its
value (`Visit.Leads.returned`, `Run.runCode_eq_ok`).  A `break` ends the closest loop
around it, or else the activation (`Visit.Leads.broke`).  Both end in the machine in which
the signal is given, so nothing else is done on the way.
-/

namespace ClassScript

open Run

/-! ## Statements with signals -/

section

variable {β : Type} (p : Stmt β → Bool) (loops : Bool)

mutual

/-- Whether a statement with the property stands in the statement, outside of the
functions and classes in it and, unless `loops` is set, outside of the loops in it. -/
def Stmt.shows : Stmt β → Bool
  | .block body => showsAny body
  | .ifStmt _ thenBranch elifs elseBranch =>
      thenBranch.shows || showsElif elifs || showsElse elseBranch
  | .whileStmt _ body => loops && body.shows
  | s => p s

/-- Whether such a statement stands in one of the statements. -/
def showsAny : List (Stmt β) → Bool
  | [] => false
  | s :: rest => s.shows || showsAny rest

/-- Whether such a statement stands in one of the branches. -/
def showsElif : List (Elif β) → Bool
  | [] => false
  | .mk _ body :: rest => body.shows || showsElif rest

/-- Whether such a statement stands in the last branch. -/
def showsElse : Option (Stmt β) → Bool
  | none => false
  | some s => s.shows

end

/-- Whether such a statement stands in a node. -/
def Node.shows : Node β → Bool
  | .expr _ | .exprs _ => false
  | .stmt s => s.shows p loops
  | .stmts body => showsAny p loops body
  | .elifs branches elseBranch => showsElif p loops branches || showsElse p loops elseBranch
  | .loop _ body => loops && body.shows p loops

theorem Stmt.shows_of_part {s : Stmt β} : ∀ n ∈ s.parts, n.shows p loops → s.shows p loops := by
  cases s with
  | ifStmt condition thenBranch elifs elseBranch =>
    simp only [Stmt.parts, List.mem_cons, List.not_mem_nil, or_false, Stmt.shows, Bool.or_eq_true]
    rintro n (rfl | rfl | rfl) h
    · cases h
    · exact .inl (.inl h)
    · rw [Node.shows, Bool.or_eq_true] at h
      exact h.elim (fun h => .inl (.inr h)) .inr
  | whileStmt condition body =>
    simp only [Stmt.parts, List.mem_singleton]
    rintro n rfl h
    exact h
  | var name initializer => cases initializer <;> simp [Stmt.parts, Node.shows]
  | returnStmt line value => cases value <;> simp [Stmt.parts, Node.shows]
  | _ => simp [Stmt.parts, Node.shows]

/-- What stands in a part stands in the whole, unless a loop comes between. -/
theorem Node.shows_of_part {n : Node β} (hloop : loops = true ∨ ∀ c body, n ≠ .loop c body) :
    ∀ n' ∈ n.parts, n'.shows p loops → n.shows p loops := by
  cases n with
  | stmt s => exact Stmt.shows_of_part p loops
  | loop condition body =>
    obtain rfl := hloop.resolve_right fun h => h condition body rfl
    simp [Node.parts, Node.shows]
  | expr e =>
    intro n' hn' h
    have hexpr := Node.isExpr_of_mem_parts (n := .expr e) trivial n' hn'
    cases n' with
    | expr e' => cases h
    | exprs es => cases h
    | _ => cases hexpr
  | exprs es => cases es <;> simp [Node.parts, Node.shows]
  | stmts body =>
    cases body with
    | nil =>
      intro n hn
      cases hn
    | cons s rest =>
      simp only [Node.parts, List.mem_cons, List.not_mem_nil, or_false]
      rintro n (rfl | rfl) h
      · exact Bool.or_eq_true_iff.mpr (.inl h)
      · exact Bool.or_eq_true_iff.mpr (.inr h)
  | elifs branches elseBranch =>
    rcases branches with _ | ⟨⟨condition, body⟩, rest⟩
    · cases elseBranch <;> simp [Node.parts, Node.shows, showsElif, showsElse]
    · simp only [Node.parts, List.mem_cons, List.not_mem_nil, or_false]
      rintro n (rfl | rfl | rfl) h
      · cases h
      · simp only [Node.shows, showsElif, Bool.or_eq_true] at h ⊢
        exact .inl (.inl h)
      · simp only [Node.shows, showsElif, Bool.or_eq_true] at h ⊢
        exact h.imp .inr id

end

/-- Whether the statement is a `break`. -/
def Stmt.isBreak {β : Type} : Stmt β → Bool
  | .breakStmt _ => true
  | _ => false

/-- Whether the statement is a `return`. -/
def Stmt.isReturn {β : Type} : Stmt β → Bool
  | .returnStmt _ _ => true
  | _ => false

/-- Whether a `break` stands in the statement, outside of the loops, functions and
classes in it. -/
def Stmt.breaks {β : Type} (s : Stmt β) : Bool := s.shows Stmt.isBreak false

/-- Whether a `return` stands in the statement, outside of the functions and classes
in it. -/
def Stmt.returns {β : Type} (s : Stmt β) : Bool := s.shows Stmt.isReturn true

section

variable {settings : Settings} {v : Visit} {c : Completion} {m : Machine}

/-- What completes with a signal shows a statement that gives it. -/
theorem Visit.Completes.shows {p : Stmt Binding → Bool} {loops : Bool}
    (hloops : loops = true ∨ c = .broke)
    (hp : ∀ code : Code, code.Signals c → ∃ (env : EnvId) (s : Stmt Binding),
      code = .node env (.stmt s) ∧ s.shows p loops = true)
    (hc : c ≠ .normal) (h : v.Completes settings c m) :
    ∃ env n, v.code = .node env n ∧ n.shows p loops = true := by
  induction hfuel : v.fuel generalizing v with
  | zero =>
    obtain ⟨a, ha, -⟩ := h
    rw [Visit.run, hfuel, Code.run_zero] at ha
    cases ha
  | succ n ih =>
    obtain hsignals | ⟨i, v', hs, h'⟩ := h.source hc
    · obtain ⟨env, s, hcode, hshows⟩ := hp _ hsignals
      exact ⟨env, .stmt s, hcode, hshows⟩
    · obtain ⟨env', n', hcode', hshows⟩ := ih h' (by have := hs.1; omega)
      have hloop : loops = true ∨ ¬ v.code.IsLoop := by
        refine hloops.imp_right ?_
        rintro rfl hl
        exact h.not_broke_of_isLoop hl
      obtain ⟨a, -, rfl⟩ := h
      have hcalls := hs.calls
      rw [hcode'] at hcalls
      obtain ⟨fuel, depth, code, m₀⟩ := v
      dsimp only at hcalls hloop hc ⊢
      cases hcalls with
      | part hpart =>
        refine ⟨_, _, rfl, Node.shows_of_part p loops ?_ n' (List.mem_of_getElem? hpart) hshows⟩
        refine hloop.imp_right ?_
        rintro hl condition body rfl
        exact hl trivial
      | block env inner body => exact ⟨env, _, rfl, hshows⟩
      | body code values env => exact absurd rfl hc

/-- A statement that completes by `break` has one outside of its loops, functions and
classes. -/
theorem Run.breaks_of_execute {fuel depth : Nat} {env : EnvId} {s : Stmt Binding} {m₀ : Machine}
    (h : execute settings fuel depth env s m₀ = .ok .broke m) : s.breaks = true := by
  have hv : Visit.Completes settings ⟨fuel, depth, .node env (.stmt s), m₀⟩ .broke m := ⟨_, h, rfl⟩
  have hsignals : ∀ code : Code, code.Signals .broke → ∃ (env : EnvId) (s : Stmt Binding),
      code = .node env (.stmt s) ∧ s.shows Stmt.isBreak false = true := by
    rintro _ ⟨env, line⟩
    exact ⟨env, _, rfl, rfl⟩
  obtain ⟨env', n, hcode, hshows⟩ := hv.shows (.inr rfl) hsignals nofun
  cases hcode
  exact hshows

/-- A statement that completes by `return` has one outside of its functions and classes. -/
theorem Run.returns_of_execute {fuel depth : Nat} {env : EnvId} {s : Stmt Binding} {m₀ : Machine}
    {a : Value} (h : execute settings fuel depth env s m₀ = .ok (.returned a) m) :
    s.returns = true := by
  have hv : Visit.Completes settings ⟨fuel, depth, .node env (.stmt s), m₀⟩ (.returned a) m :=
    ⟨_, h, rfl⟩
  have hsignals : ∀ code : Code, code.Signals (.returned a) → ∃ (env : EnvId) (s : Stmt Binding),
      code = .node env (.stmt s) ∧ s.shows Stmt.isReturn true = true := by
    intro code hcode
    cases hcode with
    | returned env line value => exact ⟨env, _, rfl, rfl⟩
  obtain ⟨env', n, hcode, hshows⟩ := hv.shows (.inl rfl) hsignals nofun
  cases hcode
  exact hshows

end

/-! ## Activations -/

/-- The code is a node, and no stage of a call. -/
def Code.IsNode : Code → Prop
  | .node _ _ => True
  | _ => False

/-- The code is a loop statement. -/
def Code.IsWhile : Code → Prop
  | .node _ (.stmt (.whileStmt _ _)) => True
  | _ => False

/-- The code is a `return`. -/
def Code.IsReturn : Code → Prop
  | .node _ (.stmt (.returnStmt _ _)) => True
  | _ => False

/-- The code is a `break`. -/
def Code.IsBreak : Code → Prop
  | .node _ (.stmt (.breakStmt _)) => True
  | _ => False

/-- What a visit executes in its own activation. -/
abbrev Visit.Executes (settings : Settings) (v u : Visit) : Prop :=
  v.Leads settings Code.IsNode u

/-- What a visit executes in its own activation, outside of the loop statements in it. -/
abbrev Visit.Encloses (settings : Settings) (v u : Visit) : Prop :=
  v.Leads settings (fun code => code.IsNode ∧ ¬ code.IsWhile) u

theorem Code.IsNode.eq {code : Code} (h : code.IsNode) : ∃ env n, code = .node env n := by
  cases code with
  | node env n => exact ⟨env, n, rfl⟩
  | _ => cases h

theorem Code.IsBreak.not_isLoop {code : Code} (hb : code.IsBreak) :
    ¬ (code.IsWhile ∨ code.IsLoop) := by
  unfold Code.IsBreak at hb
  split at hb
  · exact fun h => h.elim id id
  · cases hb

theorem Code.IsWhile.eq {code : Code} (hw : code.IsWhile) :
    ∃ env condition body, code = .node env (.stmt (.whileStmt condition body)) := by
  unfold Code.IsWhile at hw
  split at hw
  · exact ⟨_, _, _, rfl⟩
  · cases hw

theorem Code.taken_normal (code : Code) (i : Nat) : code.taken i .normal = .normal := by
  unfold Code.taken
  split <;> trivial

theorem Code.taken_of_not_isLoop {code : Code} (hl : ¬ code.IsLoop) (i : Nat) (c : Completion) :
    code.taken i c = c := by
  unfold Code.taken
  split
  · exact absurd trivial hl
  · rfl

theorem Code.taken_returned (code : Code) (i : Nat) (a : Value) :
    code.taken i (.returned a) = .returned a := by
  unfold Code.taken
  split <;> trivial

namespace Visit

variable {settings : Settings} {P Q : Code → Prop} {v v' u : Visit} {i : Nat} {c : Completion}
  {m : Machine}

/-- A visit that ends well has no part in its activation that aborts. -/
theorem Leads.run_eq_ok (hv : v.Leads settings P u) {a : v.code.Result}
    (ha : v.run settings = .ok a m) : ∃ b m', u.run settings = .ok b m' := by
  induction hv generalizing m with
  | refl v => exact ⟨a, m, ha⟩
  | @step i v v' u hs _ _ ih =>
    cases hr : v'.run settings with
    | ok b m' => exact ih hr
    | error e m' =>
      rw [hs.error hr] at ha
      cases ha

/-- Only nodes give signals. -/
theorem Completes.isNode (h : v.Completes settings c m) (hc : c ≠ .normal) : v.code.IsNode := by
  obtain ⟨a, -, rfl⟩ := h
  obtain ⟨fuel, depth, code, m₀⟩ := v
  cases code with
  | node env n => trivial
  | _ => exact absurd rfl hc

/-! ### Returns -/

/-- A `return` that ends well returns. -/
theorem completes_of_isReturn (hu : u.code.IsReturn) {a : u.code.Result}
    (ha : u.run settings = .ok a m) : ∃ b, u.Completes settings (.returned b) m := by
  obtain ⟨fuel, depth, code, m₀⟩ := u
  obtain ⟨env, line, value, rfl⟩ : ∃ env line value,
      code = .node env (.stmt (.returnStmt line value)) := by
    unfold Code.IsReturn at hu
    split at hu
    · exact ⟨_, _, _, by assumption⟩
    · cases hu
  refine (?_ : ∃ b, a = .returned b).imp fun b hb => ⟨a, ha, hb⟩
  cases fuel with
  | zero =>
    rw [Visit.run, Code.run_zero] at ha
    cases ha
  | succ fuel =>
    rw [Visit.run, Code.run_succ] at ha
    cases value with
    | none =>
      cases ha
      exact ⟨_, rfl⟩
    | some value =>
      obtain ⟨b, m₁, -, hrest⟩ := bind_eq_ok.mp ha
      cases hrest
      exact ⟨b, rfl⟩

/-- A `return` that an activation executes ends it. -/
theorem Leads.returned (hv : v.Executes settings u) (hn : v.code.IsNode) {a : Value}
    (hu : u.Completes settings (.returned a) m) : v.Completes settings (.returned a) m := by
  induction hv with
  | refl v => exact hu
  | @step i v v' u hs hp _ ih =>
    obtain ⟨env, n, hcode⟩ := hn.eq
    have h := hs.hands hcode (ih hp hu) (.inl nofun)
    rwa [Code.taken_returned] at h

/-- An activation that a `return` ends has executed it. -/
theorem Completes.exists_return {a : Value} (h : v.Completes settings (.returned a) m) :
    ∃ u, v.Executes settings u ∧ u.code.IsReturn := by
  induction hfuel : v.fuel generalizing v with
  | zero =>
    obtain ⟨a, ha, -⟩ := h
    rw [Visit.run, hfuel, Code.run_zero] at ha
    cases ha
  | succ n ih =>
    obtain hsignals | ⟨i, v', hs, h'⟩ := h.source (by simp)
    · refine ⟨v, .refl v, ?_⟩
      cases hcode : v.code with
      | node env n =>
        rw [hcode] at hsignals
        cases hsignals
        trivial
      | _ =>
        rw [hcode] at hsignals
        cases hsignals
    · obtain ⟨u, hu, hreturn⟩ := ih h' (by have := hs.1; omega)
      exact ⟨u, .step hs (h'.isNode (by simp)) hu, hreturn⟩

/-! ### Breaks -/

/-- What a loop statement starts is the first round of its loop. -/
theorem Starts.isLoop_of_isWhile (hs : v.Starts settings i v') (hw : v.code.IsWhile) :
    v'.code.IsLoop := by
  obtain ⟨env, condition, body, hcode⟩ := hw.eq
  obtain ⟨n, hn, hcode'⟩ := hs.calls.part_of_node hcode nofun nofun
  obtain rfl := List.mem_singleton.mp (List.mem_of_getElem? hn)
  rw [hcode']
  trivial

/-- Only loop statements and rounds of loops start rounds of loops. -/
theorem Starts.of_isLoop (hs : v.Starts settings i v') (hn : v.code.IsNode)
    (hl : v'.code.IsLoop) : v.code.IsWhile ∨ v.code.IsLoop := by
  obtain ⟨env, n, hcode⟩ := hn.eq
  obtain ⟨env', condition, body, hcode'⟩ := Code.eq_loop hl
  have hcalls := hs.calls
  rw [hcode, hcode'] at hcalls
  cases hcalls with
  | part hpart =>
    rw [hcode]
    have hmem := List.mem_of_getElem? hpart
    cases n with
    | stmt s =>
      cases s with
      | whileStmt => exact .inl trivial
      | var name initializer => cases initializer <;> simp [Node.parts, Stmt.parts] at hmem
      | returnStmt line value => cases value <;> simp [Node.parts, Stmt.parts] at hmem
      | _ => simp [Node.parts, Stmt.parts] at hmem
    | loop => exact .inr trivial
    | expr e => exact (Node.isExpr_of_mem_parts (n := .expr e) trivial _ hmem).elim
    | exprs es => cases es <;> simp [Node.parts] at hmem
    | stmts body => cases body <;> simp [Node.parts] at hmem
    | elifs branches elseBranch =>
      rcases branches with _ | ⟨⟨condition, body⟩, rest⟩ <;> cases elseBranch <;>
        simp [Node.parts] at hmem

/-- A loop takes the `break` of its body. -/
theorem Starts.taken_of_isLoop (hs : v.Starts settings i v') (hl : v.code.IsLoop)
    (h : v'.Completes settings .broke m) : v.code.taken i .broke = .normal := by
  obtain ⟨env, condition, body, hcode⟩ := Code.eq_loop hl
  obtain ⟨n, hn, hcode'⟩ := hs.calls.part_of_node hcode nofun nofun
  rw [hcode]
  match i, hn with
  | 0, hn =>
    cases hn
    exact nomatch h.normal_of_isExpr hcode' trivial
  | 1, _ => rfl
  | 2, hn =>
    cases hn
    exact absurd h (Completes.not_broke_of_isLoop (by rw [hcode']; trivial))

/-- A `break` ends what encloses it in the closest loop, and that loop completes
normally. -/
theorem Leads.broke (hv : v.Encloses settings u) (hn : v.code.IsNode) (hb : u.code.IsBreak)
    (hu : u.Completes settings .broke m) :
    (v.code.IsWhile ∨ v.code.IsLoop → v.Completes settings .normal m) ∧
      (¬ v.code.IsWhile → ¬ v.code.IsLoop → v.Completes settings .broke m) := by
  induction hv with
  | refl v => exact ⟨fun h => (hb.not_isLoop h).elim, fun _ _ => hu⟩
  | @step i v v' u hs hp _ ih =>
    obtain ⟨env, n, hcode⟩ := hn.eq
    obtain ⟨hnormal, hbroke⟩ := ih hp.1 hb hu
    by_cases hl' : v'.code.IsLoop
    · have h := hs.hands hcode (hnormal (.inr hl')) (.inr hl')
      rw [Code.taken_normal] at h
      refine ⟨fun _ => h, fun hw hl => ?_⟩
      exact ((hs.of_isLoop hn hl').elim hw hl).elim
    · have h' := hbroke hp.2 hl'
      have h := hs.hands hcode h' (.inl nofun)
      refine ⟨fun hl => ?_, fun _ hl => ?_⟩
      · rwa [hs.taken_of_isLoop (hl.resolve_left fun hw => hl' (hs.isLoop_of_isWhile hw)) h'] at h
      · rwa [Code.taken_of_not_isLoop hl] at h

end Visit

/-! ## Calls -/

namespace Run

variable {settings : Settings} {fuel depth i : Nat} {code : Closure} {values : List Value}
  {m₀ m : Machine} {a : Value} {u : Visit}

/-- The visit of the code of a function. -/
abbrev activation (fuel depth : Nat) (code : Closure) (values : List Value) (m : Machine) : Visit :=
  ⟨fuel, depth, .closure code values, m⟩

/-- The value of a call is read off the completion of its body. -/
theorem runCode_of_body {b : Visit} {c : Completion}
    (hs : (activation fuel depth code values m₀).Starts settings i b)
    (hb : b.Completes settings c m) :
    runCode settings fuel depth code values m₀ = callValue code c m := by
  obtain ⟨fuel', depth', code', m₁⟩ := b
  obtain ⟨hfuel, hm⟩ := hs
  obtain rfl : fuel = fuel' + 1 := hfuel
  replace hm : (Plan.ofClosure depth code values).Meets (Code.run settings fuel') m₀ i depth' code'
    m₁ := hm
  cases hm with
  | act hstep hm =>
    cases hstep
    cases hm with
    | here =>
      obtain ⟨a, ha, rfl⟩ := hb
      have hbody : executeAll settings fuel' depth m₀.heap.nextEnv code.body
          (m₀.pushEnv code.scope (argumentSlots code.parameters values ∅)) = .ok a m := ha
      rw [runCode, bind_apply, newEnv_apply]
      dsimp only
      rw [bind_apply, hbody]
      rfl
    | call _ hm =>
      cases hm with
      | act _ hm => cases hm

/-- A call that is completed has a body that is completed. -/
theorem body_of_runCode (h : runCode settings fuel depth code values m₀ = .ok a m) :
    ∃ b c m₁, (activation fuel depth code values m₀).Starts settings 0 b ∧
      b.code.IsNode ∧ b.Completes settings c m₁ ∧ callValue code c m₁ = .ok a m := by
  cases fuel with
  | zero =>
    simp only [runCode] at h
    cases h
  | succ fuel =>
    rw [runCode] at h
    obtain ⟨env, m₁, hstep, h⟩ := bind_eq_ok.mp h
    cases hstep
    obtain ⟨c, m₂, hbody, h⟩ := bind_eq_ok.mp h
    refine ⟨⟨fuel, depth, .node m₀.heap.nextEnv (.stmts code.body), _⟩, c, m₂,
      ⟨rfl, .act rfl (.here ..)⟩, trivial, ⟨c, hbody, rfl⟩, h⟩

/-- The value of a completed call of a function that is no initializer is that of the
`return` that it executes.  It is nil if there is none. -/
theorem runCode_eq_ok (hi : code.isInitializer = false)
    (h : runCode settings fuel depth code values m₀ = .ok a m) :
    (∀ u, (activation fuel depth code values m₀).Executes settings u → u.code.IsReturn →
      u.Completes settings (.returned a) m) ∧
    ((∀ u, (activation fuel depth code values m₀).Executes settings u → ¬ u.code.IsReturn) →
      a = .nil) := by
  obtain ⟨b, c, m₁, hs, hn, hb, hvalue⟩ := body_of_runCode h
  have hcall : ∀ a', callValue code (.returned a') = pure a' := by
    intro a'
    simp [callValue, hi]
  refine ⟨fun u hu hreturn => ?_, fun hnone => ?_⟩
  · obtain ⟨d, m', hd⟩ := hu.run_eq_ok (show Visit.run settings _ = .ok a m from h)
    obtain ⟨a', ha'⟩ := Visit.completes_of_isReturn hreturn hd
    cases hu with
    | refl => exact hreturn.elim
    | step hs' hp hu =>
      have h' := runCode_of_body hs' (hu.returned hp ha')
      rw [h, hcall] at h'
      cases h'
      exact ha'
  · cases c with
    | returned a' =>
      obtain ⟨u, hu, hreturn⟩ := hb.exists_return
      exact absurd hreturn (hnone u (.step hs hn hu))
    | _ =>
      simp only [callValue, hi] at hvalue
      cases hvalue
      rfl

end Run

end ClassScript
