import ClassScript.Proofs.Evaluation.Plan
import ClassScript.Proofs.Evaluation.Simulation

/-!
# Plans in correspondence

Two evaluations that do the same may need different amounts of fuel.  A *budget* says which
amounts they get, and which of the two may run out of fuel where the other one goes on.
A run *follows* another one within a budget (`Comparison.Follows`) if it simulates it or if
one of them is cut short, as far as the budget lets it.

The plans of two codes *correspond* if they take related steps in the same order and call
evaluation on related codes.  How the related codes are evaluated is left open: whatever
evaluates them, one run following the other, makes the run of one plan follow that of the
other plan (`Plan.Corresponds.follow`).
-/

namespace ClassScript

namespace Run

/-! ## Budgets -/

/-- The fuel of two runs that are compared. -/
structure Budget where
  /-- The first run may be cut short. -/
  left : Prop
  /-- The second run may be cut short. -/
  right : Prop
  /-- The amounts of fuel that the two runs may have. -/
  allows : Nat → Nat → Prop

/-- Both runs have the same fuel, and neither is cut short alone. -/
def Budget.same : Budget := ⟨False, False, fun fuel fuel' => fuel = fuel'⟩

namespace Comparison

variable {ω : Type} (C : Comparison ω) (b : Budget)

/-- The ends of two runs are related, or one of them is cut short. -/
inductive Matches {α β : Type} (Q : ω → α → β → Prop) (w : ω) :
    EStateM.Result Abort Machine α → EStateM.Result Abort Machine β → Prop where
  | agree {r : EStateM.Result Abort Machine α} {r' : EStateM.Result Abort Machine β} :
      C.Agree Q w r r' → Matches Q w r r'
  | left {m : Machine} {r' : EStateM.Result Abort Machine β} : b.left →
      Matches Q w (.error .outOfFuel m) r'
  | right {r : EStateM.Result Abort Machine α} {m' : Machine} : b.right →
      Matches Q w r (.error .outOfFuel m')

/-- From machines that are related in the world, the two runs come to related ends unless
one of them is cut short. -/
def Follows {α β : Type} (Q : ω → α → β → Prop) (w : ω) (x : Run α) (y : Run β) : Prop :=
  ∀ m m', C.machines w m m' → C.Matches b Q w (x m) (y m')

variable {C b}

theorem Matches.after {α β : Type} {Q : ω → α → β → Prop} {w w' : ω}
    {r : EStateM.Result Abort Machine α} {r' : EStateM.Result Abort Machine β}
    (h : C.Matches b Q w' r r') (hw : C.le w w') : C.Matches b Q w r r' := by
  cases h with
  | agree h => exact .agree (h.after hw)
  | left hl => exact .left hl
  | right hr => exact .right hr

/-- Runs with the same fuel come to related ends. -/
theorem Matches.agree_of_same {α β : Type} {Q : ω → α → β → Prop} {w : ω}
    {r : EStateM.Result Abort Machine α} {r' : EStateM.Result Abort Machine β}
    (h : C.Matches .same Q w r r') : C.Agree Q w r r' := by
  cases h with
  | agree h => exact h
  | left hl => exact hl.elim
  | right hr => exact hr.elim

namespace Follows

variable {α β γ δ : Type} {Q : ω → α → β → Prop} {P : ω → γ → δ → Prop} {w : ω}

theorem of_simulates {x : Run α} {y : Run β} (h : C.Simulates Q w x y) : C.Follows b Q w x y :=
  fun m m' hm => .agree (h m m' hm)

theorem pure {a : α} {a' : β} (h : Q w a a') : C.Follows b Q w (pure a) (Pure.pure a') :=
  of_simulates (.pure h)

theorem bind {x : Run α} {y : Run β} {f : α → Run γ} {g : β → Run δ} (hx : C.Follows b Q w x y)
    (hf : ∀ w' a a', C.le w w' → Q w' a a' → C.Follows b P w' (f a) (g a')) :
    C.Follows b P w (x >>= f) (y >>= g) := by
  intro m m' hm
  have h := hx m m' hm
  rw [bind_apply, bind_apply]
  generalize x m = r, y m' = r' at h ⊢
  cases h with
  | agree h =>
    cases h with
    | ok hw hm hq => exact (hf _ _ _ hw hq _ _ hm).after hw
    | error hw hm he => exact .agree (.error hw hm he)
  | left hl => exact .left hl
  | right hr => exact .right hr

end Follows

end Comparison

end Run

/-! ## Plans -/

open Run

/-- The codes that two plans call in correspondence, with what relates their results. -/
abbrev CallRelation (ω : Type) :=
  ω → (code code' : Code) → (ω → code.Result → code'.Result → Prop) → Prop

/-- Plans that take related steps and make related calls. -/
inductive Plan.Corresponds {ω : Type} (C : Comparison ω) (R : CallRelation ω) {α β : Type}
    (Q : ω → α → β → Prop) : ω → Plan α → Plan β → Prop where
  | finish {w : ω} {a : α} {b : β} : Q w a b → Corresponds C R Q w (finish a) (finish b)
  | act {γ δ : Type} {P : ω → γ → δ → Prop} {w : ω} {step : Run γ} {step' : Run δ}
      {next : γ → Plan α} {next' : δ → Plan β} : C.Simulates P w step step' →
      (∀ w' c d, C.le w w' → P w' c d → Corresponds C R Q w' (next c) (next' d)) →
      Corresponds C R Q w (act step next) (act step' next')
  | call {w : ω} {code code' : Code} {P : ω → code.Result → code'.Result → Prop}
      {next : code.Result → Plan α} {next' : code'.Result → Plan β} (part depth : Nat) :
      R w code code' P →
      (∀ w' c d, C.le w w' → P w' c d → Corresponds C R Q w' (next c) (next' d)) →
      Corresponds C R Q w (call part depth code next) (call part depth code' next')

namespace Plan.Corresponds

variable {ω : Type} {C : Comparison ω} {R : CallRelation ω} {α β γ δ : Type} {Q : ω → α → β → Prop}
  {P : ω → γ → δ → Prop} {w : ω}

theorem pure {a : α} {b : β} (h : Q w a b) :
    Corresponds C R Q w (pure a) (Pure.pure b) := .finish h

theorem lift {step : Run α} {step' : Run β} (h : C.Simulates Q w step step') :
    Corresponds C R Q w (lift step) (Plan.lift step') :=
  .act h fun _ _ _ _ hq => .finish hq

theorem visit {code code' : Code} {P : ω → code.Result → code'.Result → Prop} (part depth : Nat)
    (h : R w code code' P) :
    Corresponds C R P w (Plan.call part depth code .finish)
      (Plan.call part depth code' .finish) :=
  .call part depth h fun _ _ _ _ hq => .finish hq

theorem bind {p : Plan α} {p' : Plan β} {f : α → Plan γ} {f' : β → Plan δ}
    (hp : Corresponds C R Q w p p')
    (hf : ∀ w' a b, C.le w w' → Q w' a b → Corresponds C R P w' (f a) (f' b)) :
    Corresponds C R P w (p >>= f) (p' >>= f') := by
  induction hp with
  | finish h => exact hf _ _ _ (C.refl _) h
  | act hs _ ih =>
    exact .act hs fun w' c d hw hq => ih w' c d hw hq fun w'' a b hw' =>
      hf w'' a b (C.trans hw hw')
  | call part depth hr _ ih =>
    exact .call part depth hr fun w' c d hw hq => ih w' c d hw hq fun w'' a b hw' =>
      hf w'' a b (C.trans hw hw')

theorem ite {c : Prop} [Decidable c] {p q : Plan α} {p' q' : Plan β}
    (hp : Corresponds C R Q w p p') (hq : Corresponds C R Q w q q') :
    Corresponds C R Q w (if c then p else q) (if c then p' else q') := by
  split
  · exact hp
  · exact hq

/-- If the related codes are evaluated alike, so are the plans. -/
theorem follow {b : Budget} {child child' : (depth : Nat) → (code : Code) → Run code.Result}
    {p : Plan α} {p' : Plan β} (hp : Corresponds C R Q w p p')
    (hchild : ∀ (depth : Nat) (w : ω) (code code' : Code)
      (P : ω → code.Result → code'.Result → Prop), R w code code' P →
      C.Follows b P w (child depth code) (child' depth code')) :
    C.Follows b Q w (p.follow child) (p'.follow child') := by
  induction hp with
  | finish h => exact .pure h
  | act hs _ ih => exact (Comparison.Follows.of_simulates hs).bind ih
  | call part depth hr _ ih => exact (hchild depth _ _ _ _ hr).bind ih

end Plan.Corresponds

end ClassScript
