import ClassScript.Proofs.Evaluation.Visit

/-!
# Evaluation with two limits of calls

The number of calls in progress is compared with its limit where a call is checked, and
nowhere else.  So with a lower limit an evaluation is the same, or it fails on the way with
an overflow.  In the second case the machine is one that the evaluation with the higher
limit comes by: whatever law its steps have relates that machine to its last one
(`Run.program_cutShort`).

An overflow ends everything around it, since no step takes a failure
(`Run.CutShort.bind`).
-/

namespace ClassScript

/-- The settings with another limit of calls. -/
def Settings.atCallLimit (settings : Settings) (callLimit : Nat) : Settings :=
  { settings with callLimit }

namespace Run

variable {R : Machine → Machine → Prop} {α β : Type}

/-- From every machine, the first run does what the second one does, or it overflows in a
machine that the law `R` relates to the last one of the second run. -/
def CutShort (R : Machine → Machine → Prop) (x y : Run α) : Prop :=
  ∀ m, x m = y m ∨
    ∃ line m', x m = .error (.failure ⟨.stackOverflow, line⟩) m' ∧ R m' (lastMachine (y m))

namespace CutShort

theorem refl (x : Run α) : CutShort R x x := fun _ => .inl rfl

/-- What comes behind an overflow is not reached, and the longer run only goes on. -/
theorem bind (law : QuietLaw R) {x y : Run α} {f g : α → Run β} (hx : CutShort R x y)
    (hf : ∀ a, CutShort R (f a) (g a)) (hg : ∀ a, Respects R (g a)) :
    CutShort R (x >>= f) (y >>= g) := by
  intro m
  rw [bind_apply, bind_apply]
  rcases hx m with hsame | ⟨line, m', hover, hm'⟩
  · rw [hsame]
    cases y m with
    | ok a m₁ => exact hf a m₁
    | error e m₁ => exact .inl rfl
  · rw [hover]
    refine .inr ⟨line, m', rfl, ?_⟩
    cases hy : y m with
    | ok a m₁ =>
      rw [hy] at hm'
      exact law.trans hm' (hg a m₁)
    | error e m₁ =>
      rw [hy] at hm'
      exact hm'

end CutShort

/-- With the lower limit a call is refused that the higher one allows, or nothing differs. -/
theorem checkCall_cutShort (law : QuietLaw R) (settings : Settings) {n k : Nat} (h : n ≤ k)
    (depth : Nat) (callee : Value) (count line : Nat) :
    CutShort R (checkCall (settings.atCallLimit n) depth callee count line)
      (checkCall (settings.atCallLimit k) depth callee count line) := by
  intro m
  have hn : (settings.atCallLimit n).callLimit = n := rfl
  have hk : (settings.atCallLimit k).callLimit = k := rfl
  rw [checkCall_apply, checkCall_apply, hn, hk]
  cases callee.arity? with
  | none => exact .inl rfl
  | some arity =>
    dsimp only
    split
    · by_cases hlow : n ≤ depth
      · by_cases hhigh : k ≤ depth
        · rw [if_pos hlow, if_pos hhigh]
          exact .inl rfl
        · rw [if_pos hlow, if_neg hhigh]
          exact .inr ⟨line, _, rfl, law.refl _⟩
      · rw [if_neg hlow, if_neg fun hhigh => hlow (Nat.le_trans h hhigh)]
        exact .inl rfl
    · exact .inl rfl

end Run

open Run

namespace Plan

variable {R : Machine → Machine → Prop} {α β : Type}

/-- The first plan is the second one, but for steps that are cut short. -/
inductive CutShort (R : Machine → Machine → Prop) : {α : Type} → Plan α → Plan α → Prop where
  | finish {α : Type} (a : α) : CutShort R (.finish a) (.finish a)
  | act {α β : Type} {step step' : Run β} {next next' : β → Plan α} :
      Run.CutShort R step step' → (∀ b, CutShort R (next b) (next' b)) →
      CutShort R (.act step next) (.act step' next')
  | call {α : Type} {part depth : Nat} {code : Code} {next next' : code.Result → Plan α} :
      (∀ a, CutShort R (next a) (next' a)) →
      CutShort R (.call part depth code next) (.call part depth code next')

namespace CutShort

theorem refl (p : Plan α) : CutShort R p p := by
  induction p with
  | finish a => exact .finish a
  | act step next ih => exact .act (.refl step) ih
  | call part depth code next ih => exact .call ih

theorem lift {step step' : Run α} (h : Run.CutShort R step step') :
    CutShort R (Plan.lift step) (Plan.lift step') :=
  act h finish

theorem bind {p p' : Plan α} {f f' : α → Plan β} (hp : CutShort R p p')
    (hf : ∀ a, CutShort R (f a) (f' a)) : CutShort R (p >>= f) (p' >>= f') := by
  induction hp with
  | finish a => exact hf a
  | act hstep _ ih => exact .act hstep ih
  | call _ ih => exact .call ih

/-- Plans that differ in steps that are cut short are cut short as a whole, if the
evaluations that they come to are. -/
theorem follow (law : QuietLaw R) {C : Nat → Code → Prop}
    {child child' : (depth : Nat) → (code : Code) → Run code.Result}
    (hchild : ∀ depth code, Run.CutShort R (child depth code) (child' depth code))
    (hlaw : ∀ depth code, Respects R (child' depth code)) {p p' : Plan α}
    (hp : CutShort R p p') (hsteps : p'.All (Respects R) C) :
    Run.CutShort R (p.follow child) (p'.follow child') := by
  have hfollow {γ : Type} {q : Plan γ} (hq : q.All (Respects R) C) : Respects R (q.follow child') :=
    fun _ => law.follow hq fun _ depth code m' _ => hlaw depth code m'
  induction hp with
  | finish a => exact .refl _
  | act hstep _ ih =>
    exact .bind law hstep (fun b => ih b (hsteps.2 b)) fun b => hfollow (hsteps.2 b)
  | @call _ depth code _ _ _ ih =>
    exact .bind law (hchild depth code) (fun a => ih a (hsteps.2 a)) fun a =>
      hfollow (hsteps.2 a)

end CutShort

end Plan

/-- One level of an evaluation is cut short where a call is checked. -/
theorem Code.plan_cutShort {R : Machine → Machine → Prop} (law : QuietLaw R)
    (settings : Settings) {n k : Nat} (h : n ≤ k) (depth : Nat) (code : Code) :
    (code.plan (settings.atCallLimit n) depth).CutShort R
      (code.plan (settings.atCallLimit k) depth) := by
  cases code with
  | node env node =>
    cases node with
    | expr e =>
      cases e with
      | call callee line arguments =>
        exact .bind (.refl _) fun f => .bind (.refl _) fun values =>
          .bind (.lift (checkCall_cutShort law settings h _ _ _ _)) fun _ => .refl _
      | _ => exact .refl _
    | stmt s => cases s with
      | var name initializer => cases initializer <;> exact .refl _
      | returnStmt line value => cases value <;> exact .refl _
      | _ => exact .refl _
    | _ => exact .refl _
  | _ => exact .refl _

namespace Run

variable {R : Machine → Machine → Prop} (law : StepLaw R) (settings : Settings) {n k : Nat}
  (h : n ≤ k)
include law h

/-- With a lower limit of calls an evaluation is the same, or it overflows on the way. -/
theorem run_cutShort (fuel : Nat) : ∀ (depth : Nat) (code : Code),
    CutShort R (code.run (settings.atCallLimit n) fuel depth)
      (code.run (settings.atCallLimit k) fuel depth) := by
  induction fuel with
  | zero =>
    intro depth code
    rw [Code.run_zero, Code.run_zero]
    exact .refl _
  | succ fuel ih =>
    intro depth code
    rw [Code.run_succ, Code.run_succ]
    exact (code.plan_cutShort law.toQuietLaw settings h depth).follow law.toQuietLaw ih
      (law.run (settings.atCallLimit k) fuel)
      (Code.plan_all law.toQuietLaw (settings.atCallLimit k) depth (law.obeys code))

theorem program_cutShort (fuel : Nat) (p : Program Binding) :
    CutShort R (program (settings.atCallLimit n) fuel p)
      (program (settings.atCallLimit k) fuel p) := by
  induction p with
  | nil => exact .refl _
  | cons s rest ih =>
    exact .bind law.toQuietLaw (run_cutShort law settings h fuel 0 (.node .globals (.stmt s)))
      (fun _ => ih) fun _ => law.program (settings.atCallLimit k) fuel rest

end Run

end ClassScript
