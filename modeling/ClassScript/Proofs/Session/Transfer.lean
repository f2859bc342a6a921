import ClassScript.Proofs.Scope.Activation
import ClassScript.Proofs.Session.Succession

/-!
# Transfer of control in sessions

Every `break` that the programs of a history come to has a closest encloser in its own
activation: a loop statement, or else the call that the activation belongs to, or else a
statement at the top level of a program (`Reached.encloser`).  The `break` ends that one
and nothing further out (`Visit.BreakEnds`).

`History.transfers` puts this together with what completes by a signal at all, and with
the values of calls.
-/

namespace ClassScript

open Resolution Run

section

variable (settings : Settings) (roots : List Root)

/-- The visit ends the closest encloser in its activation, in the machine at hand. -/
inductive Visit.BreakEnds (u : Visit) : Prop where
  /-- The loop statement around it completes normally. -/
  | loop {v : Visit} : Reached settings roots v → v.code.IsWhile → v.Encloses settings u →
      v.Completes settings .normal u.machine → BreakEnds u
  /-- Without one, the call has the value nil, or the object of the initializer. -/
  | call {fuel depth : Nat} {code : Closure} {values : List Value} {m : Machine} {a : Value} :
      Reached settings roots (activation fuel depth code values m) →
      (activation fuel depth code values m).Encloses settings u →
      runCode settings fuel depth code values m = .ok a u.machine →
      (if code.isInitializer then (u.heap.slots code.scope).get? "this" = some a else a = .nil) →
      BreakEnds u
  /-- Without a call either, the statement of the program is over. -/
  | top {v : Visit} : v.IsTop settings roots → v.Encloses settings u →
      v.Completes settings .broke u.machine → BreakEnds u

/-- Control is transferred along the nesting of statements and calls. -/
structure Transfers : Prop where
  /-- What completes by `break` has one outside of the loops, functions and classes in
  it. -/
  breaks : ∀ {fuel depth env s m m'},
    execute settings fuel depth env s m = .ok .broke m' → s.breaks = true
  /-- What completes by `return` has one outside of the functions and classes in it. -/
  returns : ∀ {fuel depth env s m a m'},
    execute settings fuel depth env s m = .ok (.returned a) m' → s.returns = true
  /-- A loop never completes by `break`. -/
  loops : ∀ {fuel depth env condition body m m'},
    execute settings fuel depth env (.whileStmt condition body) m ≠ .ok .broke m'
  /-- No statement at the top level completes by `return`. -/
  tops : ∀ {v : Visit} {a m}, v.IsTop settings roots → ¬ v.Completes settings (.returned a) m
  /-- A `break` that is executed ends its closest encloser. -/
  ends : ∀ {u : Visit}, Reached settings roots u → u.code.IsBreak → u.fuel ≠ 0 →
    u.BreakEnds settings roots
  /-- The value of a completed call that is not one of an initializer is that of the
  `return` that its own activation executes, which is then over, and nil without one. -/
  values : ∀ {fuel depth code values m a m'}, code.isInitializer = false →
    runCode settings fuel depth code values m = .ok a m' →
    (∀ u, (activation fuel depth code values m).Executes settings u → u.code.IsReturn →
      u.Completes settings (.returned a) m') ∧
    ((∀ u, (activation fuel depth code values m).Executes settings u → ¬ u.code.IsReturn) →
      a = .nil)

end

variable {settings : Settings} {roots : List Root} {u : Visit}

theorem Visit.IsTop.code {v : Visit} (hv : v.IsTop settings roots) :
    ∃ s, v.code = .node .globals (.stmt s) := by
  obtain ⟨r, w, w₁, w₂, m, -, hc, hp, rfl⟩ := hv
  obtain ⟨body, hn⟩ := hc.node
  obtain ⟨context, names, node, state⟩ := w
  obtain rfl : node = .stmts body := hn
  cases body with
  | nil => cases hp
  | cons s rest =>
    cases hp
    exact ⟨_, rfl⟩

/-- Every node has a closest encloser in its activation. -/
theorem Reached.encloser (hu : Reached settings roots u) (hn : u.code.IsNode)
    (hw : ¬ u.code.IsWhile) :
    ∃ v, Reached settings roots v ∧ v.Encloses settings u ∧
      (v.code.IsWhile ∨ (∃ fuel depth code values m, v = activation fuel depth code values m) ∨
        (v.IsTop settings roots ∧ ¬ v.code.IsWhile)) := by
  induction hu with
  | @root r w w₁ w₂ m hr hc hp =>
    exact ⟨_, .root hr hc hp, .refl _,
      .inr (.inr ⟨⟨r, w, w₁, w₂, m, hr, hc, hp, rfl⟩, hw⟩)⟩
  | @step i v u hv hs ih =>
    have hstep : v.Encloses settings u := .step hs ⟨hn, hw⟩ (.refl u)
    by_cases hnode : v.code.IsNode
    · by_cases hwhile : v.code.IsWhile
      · exact ⟨v, hv, hstep, .inl hwhile⟩
      · obtain ⟨v₀, hv₀, henclose, hkind⟩ := ih hnode hwhile
        exact ⟨v₀, hv₀, henclose.snoc hs ⟨hn, hw⟩, hkind⟩
    · refine ⟨v, hv, hstep, .inr (.inl ?_)⟩
      have hcalls := hs.calls
      obtain ⟨fuel, depth, code, m⟩ := v
      rcases code with ⟨env, n⟩ | ⟨callee, values⟩ | ⟨code, values⟩
      · exact absurd trivial hnode
      · dsimp only at hcalls
        obtain ⟨env, n, hcode⟩ := hn.eq
        rw [hcode] at hcalls
        cases hcalls
      · exact ⟨fuel, depth, code, values, m, rfl⟩

/-- A `break` gives its signal at once. -/
theorem Visit.completes_of_isBreak (hb : u.code.IsBreak) (hfuel : u.fuel ≠ 0) :
    u.Completes settings .broke u.machine := by
  obtain ⟨fuel, depth, code, m⟩ := u
  obtain ⟨fuel, rfl⟩ := Nat.exists_eq_succ_of_ne_zero hfuel
  unfold Code.IsBreak at hb
  split at hb
  · next env line heq =>
    obtain rfl : code = .node env (.stmt (.breakStmt line)) := heq
    exact Visit.completes_of_follow (n := fuel) rfl rfl
  · cases hb

theorem Code.IsBreak.isNode {code : Code} (hb : code.IsBreak) : code.IsNode := by
  unfold Code.IsBreak at hb
  split at hb
  · trivial
  · cases hb

/-- A call that a `break` ends has the value nil, or the object of its initializer. -/
theorem Closure.Known.callValue_broke {ν : Naming} {code : Closure} {m : Machine}
    (hc : code.Known settings roots ν m.heap) :
    ∃ a, callValue code .broke m = .ok a m ∧
      if code.isInitializer then (m.heap.slots code.scope).get? "this" = some a else a = .nil := by
  cases hi : code.isInitializer with
  | false =>
    refine ⟨.nil, ?_, rfl⟩
    simp only [callValue, hi, Bool.false_eq_true, if_false]
    rfl
  | true =>
    obtain ⟨a, hread, hslot⟩ := hc.readsThis hi
    exact ⟨a, by simpa [callValue, hi] using hread, hslot⟩

theorem Visit.Leads.grows {P : Code → Prop} {v : Visit} (hv : v.Leads settings P u) :
    v.heap.Grows u.heap := by
  induction hv with
  | refl v => exact .refl _
  | step hs _ _ ih => exact hs.grows.trans ih

namespace History

variable {s : Session}

/-- A `break` ends its closest encloser. -/
theorem breakEnds (hb : settings.lookup = .bound) (hh : History settings s roots)
    (hu : Reached settings roots u) (hbreak : u.code.IsBreak) (hfuel : u.fuel ≠ 0) :
    u.BreakEnds settings roots := by
  have hbroke : u.Completes settings .broke u.machine :=
    Visit.completes_of_isBreak hbreak hfuel
  have hplain := hbreak.not_isLoop
  obtain ⟨v, hv, henclose, hwhile | ⟨fuel, depth, code, values, m, rfl⟩ |
      ⟨htop, hwhile⟩⟩ :=
    hu.encloser hbreak.isNode fun h => hplain (.inl h)
  · have hnode : v.code.IsNode := by
      obtain ⟨env, condition, body, hcode⟩ := Code.IsWhile.eq hwhile
      rw [hcode]
      trivial
    exact .loop hv hwhile henclose ((henclose.broke hnode hbreak hbroke).1 (.inl hwhile))
  · obtain ⟨ν, -, -, hcode, -, -⟩ := hh.known hb hv
    have hroots := (hh.invariant hb).1
    have hcode : code.Known settings roots ν u.heap :=
      Closure.Known.mono hroots henclose.grows (fun _ _ => rfl) hcode
    obtain ⟨a, hvalue, ha⟩ := hcode.callValue_broke
    refine .call hv henclose ?_ ha
    cases henclose with
    | refl => exact hbreak.elim
    | @step i _ b _ hs hp hu' =>
      have hloop : ¬ b.code.IsLoop := by
        rw [(hs.closure rfl).1]
        exact id
      rw [← hvalue]
      exact runCode_of_body hs ((hu'.broke hp.1 hbreak hbroke).2 hp.2 hloop)
  · obtain ⟨s, hcode⟩ := htop.code
    have hnode : v.code.IsNode := by
      rw [hcode]
      trivial
    have hloop : ¬ v.code.IsLoop := by
      rw [hcode]
      exact id
    exact .top htop henclose ((henclose.broke hnode hbreak hbroke).2 hwhile hloop)

/-- Control is transferred along the nesting, in every run of every program of a
history. -/
theorem transfers (hb : settings.lookup = .bound) (hh : History settings s roots) :
    Transfers settings roots where
  breaks := breaks_of_execute
  returns := returns_of_execute
  loops h := nomatch breaks_of_execute h
  tops := by
    rintro _ a m ⟨r, w, w₁, w₂, m₀, hr, hc, hp, rfl⟩
    exact hc.not_returned (hh.invariant hb).1 hr hp
  ends := hh.breakEnds hb
  values := runCode_eq_ok

/-- A first program with a loop that is left early, in a function that returns. -/
theorem transfers_leave : ∃ s r, History (.standard 0 fun _ => 0) s [r] ∧
    Transfers (.standard 0 fun _ => 0) [r] := by
  let source := "fun f() \x7b while (true) break; return 1; \x7d print f();"
  have ha : Session.start.Accepts source := by
    unfold Session.Accepts
    decide +kernel
  have hh : History (.standard 0 fun _ => 0) _ _ := .run 20 .start ha
  exact ⟨_, _, hh, hh.transfers rfl⟩

end History

end ClassScript
