import ClassScript.Proofs.Evaluation.Steps

/-!
# Simulation

Two runs are compared by what relates their machines.  The relation may grow while they
go on, for example with the environments that they make, so it is indexed by *worlds*,
which are ordered.

A run *simulates* another one (`Comparison.Simulates`) if from related machines both
complete with related values or both abort for related reasons, and leave related
machines in some later world.
-/

namespace ClassScript

namespace Run

/-- How two runs are compared: which worlds come later than which, which machines are related
in a world, and which reasons to abort. -/
structure Comparison (ω : Type) where
  /-- The order of the worlds. -/
  le : ω → ω → Prop
  refl : ∀ w, le w w
  trans : ∀ {w₁ w₂ w₃}, le w₁ w₂ → le w₂ w₃ → le w₁ w₃
  /-- Machines that are related in a world. -/
  machines : ω → Machine → Machine → Prop
  /-- Reasons to abort that are related. -/
  aborts : Abort → Abort → Prop

namespace Comparison

variable {ω : Type} (C : Comparison ω)

/-- The ends of two runs are related in a later world. -/
inductive Agree {α β : Type} (Q : ω → α → β → Prop) (w : ω) :
    EStateM.Result Abort Machine α → EStateM.Result Abort Machine β → Prop where
  | ok {w' : ω} {a : α} {b : β} {m m' : Machine} : C.le w w' → C.machines w' m m' → Q w' a b →
      Agree Q w (.ok a m) (.ok b m')
  | error {w' : ω} {e e' : Abort} {m m' : Machine} : C.le w w' → C.machines w' m m' →
      C.aborts e e' → Agree Q w (.error e m) (.error e' m')

theorem Agree.after {C : Comparison ω} {α β : Type} {Q : ω → α → β → Prop} {w w' : ω}
    {r : EStateM.Result Abort Machine α} {r' : EStateM.Result Abort Machine β}
    (h : C.Agree Q w' r r') (hw : C.le w w') : C.Agree Q w r r' := by
  cases h with
  | ok hw' hm hq => exact .ok (C.trans hw hw') hm hq
  | error hw' hm he => exact .error (C.trans hw hw') hm he

/-- From machines that are related in the world, the two runs come to related ends. -/
def Simulates {α β : Type} (Q : ω → α → β → Prop) (w : ω) (x : Run α) (y : Run β) : Prop :=
  ∀ m m', C.machines w m m' → C.Agree Q w (x m) (y m')

namespace Simulates

variable {C} {α β γ δ : Type} {Q : ω → α → β → Prop} {P : ω → γ → δ → Prop} {w : ω}

theorem pure {a : α} {b : β} (h : Q w a b) : C.Simulates Q w (pure a) (Pure.pure b) :=
  fun _ _ hm => .ok (C.refl w) hm h

theorem throw {e e' : Abort} (h : C.aborts e e') :
    C.Simulates Q w (throw e : Run α) (MonadExcept.throw e' : Run β) :=
  fun _ _ hm => .error (C.refl w) hm h

theorem bind {x : Run α} {y : Run β} {f : α → Run γ} {g : β → Run δ} (hx : C.Simulates Q w x y)
    (hf : ∀ w' a b, C.le w w' → Q w' a b → C.Simulates P w' (f a) (g b)) :
    C.Simulates P w (x >>= f) (y >>= g) := by
  intro m m' hm
  have h := hx m m' hm
  rw [bind_apply, bind_apply]
  generalize x m = r, y m' = r' at h ⊢
  cases h with
  | ok hw hm hq => exact (hf _ _ _ hw hq _ _ hm).after hw
  | error hw hm he => exact .error hw hm he

theorem ite {c : Prop} [Decidable c] {x x' : Run α} {y y' : Run β} (hx : C.Simulates Q w x y)
    (hx' : C.Simulates Q w x' y') :
    C.Simulates Q w (if c then x else x') (if c then y else y') := by
  split
  · exact hx
  · exact hx'

end Simulates

end Comparison

end Run

end ClassScript
