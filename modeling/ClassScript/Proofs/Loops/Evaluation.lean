import ClassScript.Proofs.Evaluation.Visit
import ClassScript.Proofs.Shape.Plans

/-!
# Rounds without environments of their own

A program whose rounds are blocks runs as one that keeps its rounds apart
(`Run.program_reshapes`).  Both use up the same fuel.  The induction is on the fuel, for all
kinds of codes at once (`Code.Reshaped.follows_direct`).  A round is the one place where
the runs differ: the block makes an environment, which has no twin, and the statements
inside of it run in that environment in the first run and in the environment of the loop in
the second one.
-/

namespace ClassScript

open Run

section

variable {settings : Settings} {w : Pairing}

theorem Code.runDirect_succ (fuel depth : Nat) (code : Code) :
    code.runDirect settings (fuel + 1) depth false =
      (code.plan settings depth).follow fun depth child =>
        child.runDirect settings fuel depth (code.roundOf child) := by
  cases code <;> rfl

/-- The branches of choices are the same in programs that differ in their rounds. -/
theorem Code.Reshaped.not_nests {isRound : Bool} {code code' : Code}
    {P : Pairing → code.Result → code'.Result → Prop}
    (h : Code.Reshaped .rounds w isRound code code' P) : ¬ code.Nests code' := by
  cases h with
  | elifs ha hc =>
    cases hc with
    | nest hk => cases hk
    | _ => exact id
  | _ => exact id

/-- Only the first run makes an environment for a round. -/
theorem Run.simulates_round {env env' : EnvId} {marks : List ScopeMark}
    (ha : w.Along env marks env') {x : EnvId → Run Completion} {y : Run Completion}
    (hx : ∀ (w' : Pairing) inner, w <+: w' → w'.Along inner (.extra :: marks) env' →
      (reshaped .rounds).Follows .same (Completion.Reshaped .rounds) w' (x inner) y) :
    (reshaped .rounds).Follows .same (Completion.Reshaped .rounds) w (newEnv env ∅ >>= x) y := by
  intro m m' hm
  have hnext : m.heap.nextEnv = ⟨w.length⟩ := congrArg EnvId.mk hm.heap.size
  have hw : w <+: w ++ [.extra env] := List.prefix_append ..
  have hpush : Machine.Reshaped .rounds (w ++ [.extra env]) (m.pushEnv env ∅) m' :=
    ⟨hm.heap.pushExtra env, hm.readings, hm.events⟩
  rw [bind_apply, newEnv_apply, hnext]
  exact (hx _ _ hw ha.pushExtra _ _ hpush).after hw

/-- Codes whose rounds are blocks run as codes that keep their rounds apart. -/
theorem Code.Reshaped.follows_direct (hb : settings.lookup = .bound) (fuel depth : Nat)
    {isRound : Bool} {code code' : Code} {P : Pairing → code.Result → code'.Result → Prop}
    (h : Code.Reshaped .rounds w isRound code code' P) :
    (reshaped .rounds).Follows .same P w (code.run settings fuel depth)
      (code'.runDirect settings fuel depth isRound) := by
  induction fuel generalizing w depth isRound code code' with
  | zero =>
    rw [Code.run_zero, Code.runDirect]
    exact .of_simulates (.throw rfl)
  | succ fuel ih =>
    cases isRound with
    | false =>
      rw [Code.run_succ, Code.runDirect_succ]
      refine (h.corresponds hb depth h.not_nests).follow fun depth w child child' P hc => ?_
      unfold Code.calls at hc
      rw [decide_eq_true rfl, Bool.and_true] at hc
      exact ih depth hc
    | true =>
      cases h with
      | @round env env' marks body f' ha hs =>
        have hblock : (Code.node env (.stmt (.block body))).run settings (fuel + 1) depth =
            newEnv env ∅ >>= fun inner =>
              (Code.node inner (.stmts body)).run settings fuel depth := by
          rw [Code.run, Run.execute]
          rfl
        rw [hblock]
        exact simulates_round ha fun w' inner _ ha' => ih depth (.stmts ha' hs)

end

/-- Programs whose rounds are blocks run as programs that keep their rounds apart. -/
theorem Run.program_reshapes {settings : Settings} (hb : settings.lookup = .bound) (fuel : Nat)
    {w : Pairing} (ha : w.Along .globals [] .globals) {p p' : Program Binding}
    (hp : StmtsReshaped .rounds [] p p') :
    (reshaped .rounds).Follows .same Run.Ends w (program settings fuel p)
      (programDirect settings fuel p') := by
  induction p generalizing w p' with
  | nil =>
    cases hp
    exact .pure trivial
  | cons s rest ih =>
    cases hp with
    | cons hs hrest =>
      have hfirst := Code.Reshaped.follows_direct hb fuel 0 (.stmt ha hs)
      exact hfirst.bind fun _ _ _ hw _ => ih (ha.mono hw) hrest

end ClassScript
