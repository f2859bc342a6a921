import ClassScript.Proofs.Evaluation.Visit

/-!
# Parts one after the other

A visit starts its parts one after the other, and each one ends before the next one
starts (`Visit.StartsThen`).  Evaluation leaves no choice in it, so of any two parts of a
visit one comes before the other (`Visit.Starts.ordered`).

A law of steps relates the machine that the earlier part leaves to that of the later one
(`LawOn.between`), and the machine that a part leaves to the last one of the whole visit
(`LawOn.rest`).
-/

namespace ClassScript

open Run

/-- The visit starts the visit `u` and, when that is over, the visit `u'`. -/
inductive Plan.Passes {α : Type} (settings : Settings) (n : Nat) :
    Plan α → (m : Machine) → (u u' : Visit) → Prop where
  | here {i j depth depth' : Nat} {code code' : Code} {next : code.Result → Plan α}
      {m m' m₁ : Machine} {a : code.Result} : code.run settings n depth m = .ok a m' →
      (next a).Meets (Code.run settings n) m' j depth' code' m₁ →
      Passes settings n (call i depth code next) m ⟨n, depth, code, m⟩ ⟨n, depth', code', m₁⟩
  | act {β : Type} {step : Run β} {next : β → Plan α} {m m' : Machine} {b : β} {u u' : Visit} :
      step m = .ok b m' → Passes settings n (next b) m' u u' →
      Passes settings n (act step next) m u u'
  | call {i depth : Nat} {code : Code} {next : code.Result → Plan α} {m m' : Machine}
      {a : code.Result} {u u' : Visit} : code.run settings n depth m = .ok a m' →
      Passes settings n (next a) m' u u' → Passes settings n (call i depth code next) m u u'

/-- The evaluation of `v` starts that of `u` and, when that is over, the one of `u'`. -/
def Visit.StartsThen (settings : Settings) (v u u' : Visit) : Prop :=
  ∃ n, v.fuel = n + 1 ∧ (v.code.plan settings v.depth).Passes settings n v.machine u u'

section

variable {settings : Settings} {α : Type} {p : Plan α} {n : Nat} {m : Machine} {v u u' : Visit}
  {i j : Nat}

theorem Plan.Passes.first (hp : p.Passes settings n m u u') :
    u.fuel = n ∧ ∃ i, p.Meets (Code.run settings n) m i u.depth u.code u.machine := by
  induction hp with
  | here => exact ⟨rfl, _, .here ..⟩
  | act hs _ ih => exact ⟨ih.1, ih.2.imp fun _ hm => .act hs hm⟩
  | call hs _ ih => exact ⟨ih.1, ih.2.imp fun _ hm => .call hs hm⟩

theorem Plan.Passes.second (hp : p.Passes settings n m u u') :
    u'.fuel = n ∧ ∃ i, p.Meets (Code.run settings n) m i u'.depth u'.code u'.machine := by
  induction hp with
  | here hs hm => exact ⟨rfl, _, .call hs hm⟩
  | act hs _ ih => exact ⟨ih.1, ih.2.imp fun _ hm => .act hs hm⟩
  | call hs _ ih => exact ⟨ih.1, ih.2.imp fun _ hm => .call hs hm⟩

theorem Visit.StartsThen.first (h : v.StartsThen settings u u') : ∃ i, v.Starts settings i u := by
  obtain ⟨n, hfuel, hp⟩ := h
  obtain ⟨rfl, i, hm⟩ := hp.first
  exact ⟨i, hfuel, hm⟩

theorem Visit.StartsThen.second (h : v.StartsThen settings u u') :
    ∃ i, v.Starts settings i u' := by
  obtain ⟨n, hfuel, hp⟩ := h
  obtain ⟨rfl, i, hm⟩ := hp.second
  exact ⟨i, hfuel, hm⟩

/-- Of two evaluations that a plan comes to, one comes first. -/
theorem Plan.Meets.ordered {depth depth' : Nat} {code code' : Code} {m₁ m₂ : Machine}
    (h : p.Meets (Code.run settings n) m i depth code m₁)
    (h' : p.Meets (Code.run settings n) m j depth' code' m₂) :
    (⟨n, depth, code, m₁⟩ : Visit) = ⟨n, depth', code', m₂⟩ ∨
      p.Passes settings n m ⟨n, depth, code, m₁⟩ ⟨n, depth', code', m₂⟩ ∨
      p.Passes settings n m ⟨n, depth', code', m₂⟩ ⟨n, depth, code, m₁⟩ := by
  induction h with
  | here =>
    cases h' with
    | here => exact .inl rfl
    | call hs hm => exact .inr (.inl (.here hs hm))
  | act hs _ ih =>
    cases h' with
    | act hs' hm =>
      rw [hs] at hs'
      cases hs'
      exact (ih hm).imp id (Or.imp (.act hs) (.act hs))
  | call hs hm ih =>
    cases h' with
    | here => exact .inr (.inr (.here hs hm))
    | call hs' hm' =>
      rw [hs] at hs'
      cases hs'
      exact (ih hm').imp id (Or.imp (.call hs) (.call hs))

/-- Of two parts of a visit one comes first, if they are not the same. -/
theorem Visit.Starts.ordered (h : v.Starts settings i u) (h' : v.Starts settings j u') :
    u = u' ∨ v.StartsThen settings u u' ∨ v.StartsThen settings u' u := by
  obtain ⟨n, depth, code, m₁⟩ := u
  obtain ⟨n', depth', code', m₂⟩ := u'
  obtain rfl : n = n' := Nat.succ.inj (h.1.symm.trans h'.1)
  exact (h.2.ordered h'.2).imp id
    (Or.imp (fun hp => ⟨n, h.1, hp⟩) (fun hp => ⟨n, h.1, hp⟩))

end

/-! ## Laws -/

namespace Run

variable {R : Machine → Machine → Prop}

theorem QuietLaw.passes (law : QuietLaw R) {settings : Settings} {α : Type}
    {C : Nat → Code → Prop} {p : Plan α} {n : Nat} {m : Machine} {u u' : Visit}
    (hp : p.All (Respects R) C) (hchild : ∀ i depth code m', p.Meets (Code.run settings n) m i depth
      code m' → R m' (lastMachine (code.run settings n depth m')))
    (h : p.Passes settings n m u u') : R (lastMachine (u.run settings)) u'.machine := by
  induction h with
  | here hs hm =>
    have hlast := (law.meets (hp.2 _) (fun i depth code m₁ hm => hchild i depth code m₁
      (.call hs hm)) hm).2
    rw [Visit.run, hs]
    exact hlast
  | act hs _ ih => exact ih (hp.2 _) fun i depth code m₁ hm => hchild i depth code m₁ (.act hs hm)
  | call hs _ ih =>
    exact ih (hp.2 _) fun i depth code m₁ hm => hchild i depth code m₁ (.call hs hm)

/-- A law relates the start of a visit to a part if the earlier parts obey it. -/
theorem QuietLaw.before (law : QuietLaw R) {settings : Settings} {α : Type}
    {C : Nat → Code → Prop} {p : Plan α} {n i depth : Nat} {m m' : Machine} {code : Code}
    (hp : p.All (Respects R) C) (hpasses : ∀ u, p.Passes settings n m u ⟨n, depth, code, m'⟩ →
      R u.machine (lastMachine (u.run settings)))
    (h : p.Meets (Code.run settings n) m i depth code m') : R m m' := by
  induction h with
  | here i depth code next m => exact law.refl m
  | @act _ _ _ m _ _ _ _ _ _ hs _ ih =>
    have hstep := hp.1 m
    rw [hs] at hstep
    exact law.trans hstep (ih (hp.2 _) fun u hu => hpasses u (.act hs hu))
  | @call _ depth' other _ m _ _ _ _ _ _ hs hm ih =>
    have hfirst := hpasses ⟨n, depth', other, m⟩ (.here hs hm)
    rw [Visit.run, hs] at hfirst
    exact law.trans hfirst (ih (hp.2 _) fun u hu => hpasses u (.call hs hu))

theorem QuietLaw.rest (law : QuietLaw R) {α : Type}
    {child : (depth : Nat) → (code : Code) → Run code.Result} {C : Nat → Code → Prop} {p : Plan α}
    {m m' : Machine} {i depth : Nat} {code : Code} (hp : p.All (Respects R) C)
    (hchild : ∀ i depth code m', p.Meets child m i depth code m' →
      R m' (lastMachine (child depth code m')))
    (h : p.Meets child m i depth code m') :
    R (lastMachine (child depth code m')) (lastMachine (p.follow child m)) := by
  induction h with
  | here i depth code next m =>
    unfold Plan.follow
    rw [bind_apply]
    cases hs : child depth code m with
    | error e m' => exact law.refl m'
    | ok a m' =>
      exact law.follow (hp.2 a) fun i depth code m₁ hm => hchild i depth code m₁ (.call hs hm)
  | act hs _ ih =>
    unfold Plan.follow
    rw [bind_apply, hs]
    exact ih (hp.2 _) fun i depth code m₁ hm => hchild i depth code m₁ (.act hs hm)
  | call hs _ ih =>
    unfold Plan.follow
    rw [bind_apply, hs]
    exact ih (hp.2 _) fun i depth code m₁ hm => hchild i depth code m₁ (.call hs hm)

namespace LawOn

variable {settings : Settings} {P : Visit → Prop} (law : LawOn settings P R) {v u u' : Visit}
  {i : Nat} (hv : P v)
include law hv

/-- A law relates the machine that a part leaves to that of a later part. -/
theorem between (h : v.StartsThen settings u u') : R (lastMachine (u.run settings)) u'.machine := by
  obtain ⟨n, hfuel, hp⟩ := h
  exact law.passes (law.plan_all hv) (fun _ _ _ _ hm => law.run_of_meets hv hfuel hm) hp

/-- A law relates the machine that a part leaves to the one that the whole visit leaves. -/
theorem rest (hs : v.Starts settings i u) :
    R (lastMachine (u.run settings)) (lastMachine (v.run settings)) := by
  have hrun : v.run settings =
      (v.code.plan settings v.depth).follow (Code.run settings u.fuel) v.machine := by
    rw [Visit.run, hs.1, Code.run_succ]
  rw [hrun]
  exact law.toQuietLaw.rest (law.plan_all hv) (fun _ _ _ _ hm => law.run_of_meets hv hs.1 hm) hs.2

variable {Q : Code → Prop}

/-- A law relates the machine of a visit to those of the visits that it leads to. -/
theorem leads (h : v.Leads settings Q u) : P u ∧ R v.machine u.machine := by
  induction h with
  | refl v => exact ⟨hv, law.refl _⟩
  | step hs _ _ ih =>
    obtain ⟨hu, hr⟩ := ih (law.part hv hs)
    exact ⟨hu, law.trans (law.starts hv hs).2 hr⟩

/-- A law relates the machines that these leave to the one that the visit leaves. -/
theorem leads_rest (h : v.Leads settings Q u) :
    R (lastMachine (u.run settings)) (lastMachine (v.run settings)) := by
  induction h with
  | refl v => exact law.refl _
  | step hs _ _ ih => exact law.trans (ih (law.part hv hs)) (law.rest hv hs)

end LawOn

end Run

end ClassScript
