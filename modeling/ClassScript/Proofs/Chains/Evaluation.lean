import ClassScript.Proofs.Evaluation.Visit
import ClassScript.Proofs.Shape.Plans

/-!
# Running chains of choices

A chain evaluates its conditions in order until one holds, and runs one branch at most
(`Run.executeElifs_passes`).

A choice runs as a chain whose first branch is its own (`Run.execute_ifStmt`), as long as no
notes about conditions are written.  So a program runs as the one whose further branches are
choices of their own (`Run.program_follows`).  The second program comes to the same branches
one level deeper each, so the two need different amounts of fuel.  The induction is on the fuel
of the first one, within any budget that allows for this (`Run.Budget.Nested`).
-/

namespace ClassScript

open Run

/-! ## Chains -/

namespace Run

section

variable (settings : Settings) (depth : Nat) (env : EnvId)

/-- The conditions of the branches are evaluated one after another, and none of them holds.
The fuel and the machine before and after. -/
inductive Passes : List (Elif Binding) → Nat → Machine → Nat → Machine → Prop where
  | nil (fuel : Nat) (m : Machine) : Passes [] fuel m fuel m
  | cons {condition : Expr Binding} {body : Stmt Binding} {rest : List (Elif Binding)}
      {fuel fuel' : Nat} {m m₁ m' : Machine} {a : Value} :
      evaluate settings fuel depth env condition m = .ok a m₁ → a.isTruthy = false →
      Passes rest fuel m₁ fuel' m' →
      Passes (.mk condition body :: rest) (fuel + 1) m fuel' m'

/-- How a chain goes on where no more conditions are passed: it runs the branch of a condition
that holds, or the last branch, and nothing else. -/
inductive Chooses : List (Elif Binding) → Option (Stmt Binding) → Nat → Machine →
    EStateM.Result Abort Machine Completion → Prop where
  | branch {condition : Expr Binding} {body : Stmt Binding} {rest : List (Elif Binding)}
      {last : Option (Stmt Binding)} {fuel : Nat} {m m' : Machine} {a : Value} :
      evaluate settings fuel depth env condition m = .ok a m' → a.isTruthy = true →
      Chooses (.mk condition body :: rest) last (fuel + 1) m
        (execute settings fuel depth env body m')
  | last (s : Stmt Binding) (fuel : Nat) (m : Machine) :
      Chooses [] (some s) (fuel + 1) m (execute settings fuel depth env s m)
  | nothing (fuel : Nat) (m : Machine) : Chooses [] none (fuel + 1) m (.ok .normal m)
  | abort {condition : Expr Binding} {body : Stmt Binding} {rest : List (Elif Binding)}
      {last : Option (Stmt Binding)} {fuel : Nat} {m m' : Machine} {e : Abort} :
      evaluate settings fuel depth env condition m = .error e m' →
      Chooses (.mk condition body :: rest) last (fuel + 1) m (.error e m')
  | outOfFuel (branches : List (Elif Binding)) (last : Option (Stmt Binding)) (m : Machine) :
      Chooses branches last 0 m (.error .outOfFuel m)

end

variable {settings : Settings} {depth : Nat} {env : EnvId}

/-- A chain passes some of its conditions, in order, and then chooses. -/
theorem executeElifs_passes (branches : List (Elif Binding)) (last : Option (Stmt Binding))
    (fuel : Nat) (m : Machine) :
    ∃ passed rest fuel' m', branches = passed ++ rest ∧
      Passes settings depth env passed fuel m fuel' m' ∧
      Chooses settings depth env rest last fuel' m'
        (executeElifs settings fuel depth env branches last m) := by
  induction branches generalizing fuel m with
  | nil =>
    refine ⟨[], [], fuel, m, rfl, .nil fuel m, ?_⟩
    cases fuel with
    | zero =>
      simp only [executeElifs]
      exact .outOfFuel [] last m
    | succ fuel =>
      cases last with
      | none =>
        simp only [executeElifs]
        exact .nothing fuel m
      | some s =>
        simp only [executeElifs]
        exact .last s fuel m
  | cons branch rest ih =>
    obtain ⟨condition, body⟩ := branch
    cases fuel with
    | zero =>
      refine ⟨[], _, 0, m, rfl, .nil 0 m, ?_⟩
      rw [executeElifs]
      exact .outOfFuel _ last m
    | succ fuel =>
      rw [executeElifs, bind_apply]
      cases hc : evaluate settings fuel depth env condition m with
      | error e m' => exact ⟨[], _, _, m, rfl, .nil _ m, .abort hc⟩
      | ok a m₁ =>
        cases ha : a.isTruthy with
        | true => exact ⟨[], _, _, m, rfl, .nil _ m, by simpa [ha] using Chooses.branch hc ha⟩
        | false =>
          obtain ⟨passed, more, fuel', m', hsplit, hpassed, hend⟩ := ih fuel m₁
          refine ⟨.mk condition body :: passed, more, fuel', m', congrArg (_ :: ·) hsplit,
            .cons hc ha hpassed, ?_⟩
          simpa [ha] using hend

/-- A choice is a chain whose first branch is its own. -/
theorem execute_ifStmt (hv : settings.verbosity < 3) (fuel : Nat) (condition : Expr Binding)
    (thenBranch : Stmt Binding) (elifs : List (Elif Binding)) (last : Option (Stmt Binding)) :
    execute settings fuel depth env (.ifStmt condition thenBranch elifs last) =
      executeElifs settings fuel depth env (.mk condition thenBranch :: elifs) last := by
  cases fuel with
  | zero => simp only [execute, executeElifs]
  | succ fuel =>
    simp only [execute, executeElifs, if_neg (Nat.not_le.mpr hv)]

/-- A chain that consists of a choice in its last branch runs as that choice. -/
theorem executeElifs_ifStmt (hv : settings.verbosity < 3) (fuel : Nat) (condition : Expr Binding)
    (thenBranch : Stmt Binding) (elifs : List (Elif Binding)) (last : Option (Stmt Binding)) :
    executeElifs settings (fuel + 1) depth env [] (some (.ifStmt condition thenBranch elifs last)) =
      executeElifs settings fuel depth env (.mk condition thenBranch :: elifs) last := by
  rw [executeElifs]
  exact execute_ifStmt hv fuel condition thenBranch elifs last

/-! ## Budgets -/

/-- The budget lasts from each level of an evaluation to the next one, also if the second run
comes to it one level deeper.  Where a run is cut short, it may be. -/
structure Budget.Nested (b : Budget) : Prop where
  next : ∀ {fuel fuel' : Nat}, b.allows (fuel + 1) (fuel' + 1) → b.allows fuel fuel'
  deeper : ∀ {fuel fuel' : Nat}, b.allows (fuel + 1) (fuel' + 2) → b.allows fuel fuel'
  left : ∀ {fuel' : Nat}, b.allows 0 (fuel' + 1) → b.left
  right : ∀ {fuel : Nat}, b.allows (fuel + 1) 0 → b.right
  inside : ∀ {fuel : Nat}, b.allows (fuel + 1) 1 → b.right

/-- Any amounts of fuel.  Either run may be cut short. -/
def Budget.any : Budget := ⟨True, True, fun _ _ => True⟩

/-- The second run has twice the fuel of the first one, or more, and is not cut short alone. -/
def Budget.double : Budget := ⟨True, False, fun fuel fuel' => 2 * fuel ≤ fuel'⟩

/-- The first run has as much fuel as the second one, or more, and is not cut short alone. -/
def Budget.atLeast : Budget := ⟨False, True, fun fuel fuel' => fuel' ≤ fuel⟩

theorem Budget.nested_any : Budget.any.Nested :=
  ⟨fun _ => trivial, fun _ => trivial, fun _ => trivial, fun _ => trivial, fun _ => trivial⟩

theorem Budget.nested_double : Budget.double.Nested := by
  refine ⟨?_, ?_, fun _ => trivial, ?_, ?_⟩ <;> simp only [Budget.double] <;> omega

theorem Budget.nested_atLeast : Budget.atLeast.Nested := by
  refine ⟨?_, ?_, ?_, fun _ => trivial, fun _ => trivial⟩ <;> simp only [Budget.atLeast] <;>
    omega

end Run

/-! ## Programs -/

/-- What two codes call is related as they are, for there are no rounds. -/
theorem Code.Reshaped.of_calls {other : Code} {w : Pairing} {code code' : Code}
    {P : Pairing → code.Result → code'.Result → Prop} (h : other.calls .chains w code code' P) :
    Code.Reshaped .chains w false code code' P := by
  unfold Code.calls at h
  rwa [decide_eq_false (by decide), Bool.and_false] at h

section

variable {settings : Settings} (hb : settings.lookup = .bound) (hv : settings.verbosity < 3)
  {b : Budget} (hn : b.Nested)
include hb hv hn

/-- Codes run as codes in which further branches are choices of their own. -/
theorem Code.Reshaped.follows_nested (fuel fuel' depth : Nat) (ha : b.allows fuel fuel')
    {w : Pairing} {code code' : Code} {P : Pairing → code.Result → code'.Result → Prop}
    (h : Code.Reshaped .chains w false code code' P) :
    (reshaped .chains).Follows b P w (code.run settings fuel depth)
      (code'.run settings fuel' depth) := by
  induction fuel generalizing w fuel' depth code code' with
  | zero =>
    rw [Code.run_zero]
    cases fuel' with
    | zero =>
      rw [Code.run_zero]
      exact .of_simulates (.throw rfl)
    | succ fuel' => exact fun _ _ _ => .left (hn.left ha)
  | succ fuel ih =>
    cases fuel' with
    | zero =>
      rw [Code.run_zero]
      exact fun _ _ _ => .right (hn.right ha)
    | succ fuel' =>
      by_cases hnest : code.Nests code'
      · cases h with
        | @elifs env env' _ _ _ _ _ hw hc =>
          cases hc with
          | @nest _ condition condition' body body' rest rest' last last' _ he hbody hrest =>
            -- The second run uses up a level for the last branch and one for the choice in it.
            have hinner : (Code.node env' (.elifs []
                (some (.ifStmt condition' body' rest' last')))).run settings (fuel' + 1) depth =
                (Code.node env' (.elifs (.mk condition' body' :: rest') last')).run settings
                  fuel' depth := executeElifs_ifStmt hv fuel' condition' body' rest' last'
            have hchain := Code.Reshaped.elifs hw (.cons he hbody hrest)
            rw [hinner]
            cases fuel' with
            | zero =>
              rw [Code.run_zero settings depth (.node env' _)]
              exact fun _ _ _ => .right (hn.inside ha)
            | succ fuel' =>
              rw [Code.run_succ, Code.run_succ]
              exact (hchain.corresponds hb depth id).follow fun depth w child child' P hc =>
                ih fuel' depth (hn.deeper ha) (.of_calls hc)
          | _ => cases hnest
        | _ => cases hnest
      · rw [Code.run_succ, Code.run_succ]
        exact (h.corresponds hb depth hnest).follow fun depth w child child' P hc =>
          ih fuel' depth (hn.next ha) (.of_calls hc)

/-- A program runs as the one in which further branches are choices of their own. -/
theorem Run.program_follows {fuel fuel' : Nat} (ha : b.allows fuel fuel') {w : Pairing}
    (hw : w.Along .globals [] .globals) {p p' : Program Binding}
    (hp : StmtsReshaped .chains [] p p') :
    (reshaped .chains).Follows b Run.Ends w (program settings fuel p)
      (program settings fuel' p') := by
  induction p generalizing w p' with
  | nil =>
    cases hp
    exact .pure trivial
  | cons s rest ih =>
    cases hp with
    | cons hs hrest =>
      have hfirst := Code.Reshaped.follows_nested hb hv hn fuel fuel' 0 ha (.stmt hw hs)
      exact hfirst.bind fun _ _ _ hle _ => ih (hw.mono hle) hrest

end

end ClassScript
