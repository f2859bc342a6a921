import ClassScript.Proofs.Scope.Lockstep

/-!
# Descents

The visits of a run can be computed.  A *descent* starts at a visit and follows the
numbers of the parts that are evaluated: `Visit.descend?` runs what comes before a part
and goes on from there.

Whatever a descent finds is reached (`Reached.descend`), so that a statement about all
visits can be tried on one of them.
-/

namespace ClassScript

open Run

/-! ## Parts -/

/-- The call of evaluation that a plan comes to as the part `i`: the number of calls in
progress, the code, and the machine by then. -/
def Plan.part? {α : Type} (child : (depth : Nat) → (code : Code) → Run code.Result) (i : Nat) :
    Plan α → Machine → Option (Nat × Code × Machine)
  | finish _, _ => none
  | act step next, m =>
    match step m with
    | .ok b m' => (next b).part? child i m'
    | .error _ _ => none
  | call j depth code next, m =>
    if j = i then some (depth, code, m)
    else
      match child depth code m with
      | .ok a m' => (next a).part? child i m'
      | .error _ _ => none

/-- The part that is found is met when the plan is followed. -/
theorem Plan.meets_of_part? {α : Type}
    {child : (depth : Nat) → (code : Code) → Run code.Result} {i depth : Nat} {code : Code}
    {p : Plan α} {m m' : Machine} (h : p.part? child i m = some (depth, code, m')) :
    p.Meets child m i depth code m' := by
  induction p generalizing m with
  | finish a => cases h
  | act step next ih =>
    unfold part? at h
    cases hs : step m with
    | error e m₁ => simp [hs] at h
    | ok b m₁ =>
      simp only [hs] at h
      exact .act hs (ih b h)
  | call j n other next ih =>
    unfold part? at h
    split at h
    · subst j
      cases h
      exact .here ..
    · cases hs : child n other m with
      | error e m₁ => simp [hs] at h
      | ok a m₁ =>
        simp only [hs] at h
        exact .call hs (ih a h)

/-- The evaluation that a visit starts as its part `i`. -/
def Visit.part? (settings : Settings) (v : Visit) (i : Nat) : Option Visit :=
  match v.fuel with
  | 0 => none
  | fuel + 1 =>
    ((v.code.plan settings v.depth).part? (Code.run settings fuel) i v.machine).map
      fun (depth, code, m) => ⟨fuel, depth, code, m⟩

variable {settings : Settings} {roots : List Root} {u v v' : Visit}

/-- A visit starts the visits that are found as its parts. -/
theorem Visit.starts_of_part? {i : Nat} (h : v.part? settings i = some v') :
    v.Starts settings i v' := by
  unfold part? at h
  split at h
  · cases h
  · rename_i fuel hfuel
    obtain ⟨⟨depth, code, m⟩, hpart, rfl⟩ := Option.map_eq_some_iff.mp h
    exact ⟨hfuel, Plan.meets_of_part? hpart⟩

/-! ## Descents -/

/-- The visit that is found by the numbers of the parts on the way to it. -/
def Visit.descend? (settings : Settings) (v : Visit) : List Nat → Option Visit
  | [] => some v
  | i :: path =>
    match v.part? settings i with
    | none => none
    | some v' => v'.descend? settings path

/-- The first number of a path leads to a visit that is started, the others on from there. -/
theorem Visit.descend?_cons {i : Nat} {path : List Nat}
    (h : v.descend? settings (i :: path) = some u) :
    ∃ v', v.Starts settings i v' ∧ v'.descend? settings path = some u := by
  unfold descend? at h
  split at h
  · cases h
  · exact ⟨_, starts_of_part? ‹_›, h⟩

/-- Visits below one that is reached are reached. -/
theorem Reached.descend {path : List Nat} (hv : Reached settings roots v)
    (h : u ∈ v.descend? settings path) : Reached settings roots u := by
  induction path generalizing v with
  | nil =>
    cases h
    exact hv
  | cons i path ih =>
    obtain ⟨v', hs, h'⟩ := Visit.descend?_cons h
    exact ih (.step hv hs) h'

/-- The node of a code and its environment, unless the code is a stage of a call. -/
def Code.node? : Code → Option (EnvId × Node Binding)
  | .node env n => some (env, n)
  | _ => none

/-- A code that is read as a node is that node. -/
theorem Code.eq_of_node? {code : Code} {p : EnvId × Node Binding} (h : p ∈ code.node?) :
    code = .node p.1 p.2 := by
  cases code with
  | node env n =>
    cases h
    rfl
  | _ => cases h

/-- The visit that is found in the first statement of a program. -/
def Root.descend? (settings : Settings) (r : Root) (path : List Nat) : Option Visit :=
  match (Site.top r.program).parts with
  | [w, _] => (r.visit w r.machine).descend? settings path
  | _ => none

/-- Visits below a root are reached. -/
theorem Reached.of_root {r : Root} {path : List Nat} (hr : r ∈ roots)
    (h : v ∈ r.descend? settings path) : Reached settings roots v := by
  unfold Root.descend? at h
  split at h
  · exact (Reached.root hr .start ‹_›).descend h
  · cases h

end ClassScript
