import ClassScript.Proofs.Heap.Growth

/-!
# Lookup by name

A name that is looked up from an environment is searched for there and then in the
parents, up to the globals.  What is found is a variable that some environment has.
Along a chain it is that of the closest environment with the name
(`Chain.find?_of_closest`), or else the global one (`Chain.find?_of_none`).
-/

namespace ClassScript

/-- A value that is found by name is the value of a variable. -/
theorem Heap.get?_of_find? {h : Heap} {name : String} {a : Value} :
    ∀ {bound : Nat} {env : EnvId}, h.find? name bound env = some a →
      ∃ holder, (h.slots holder).get? name = some a
  | 0, _, hf => nomatch hf
  | bound + 1, env, hf => by
    rw [Heap.find?] at hf
    split at hf
    · cases hf
    · rename_i e he
      split at hf
      · rename_i b hb
        cases hf
        exact ⟨env, by simp only [Heap.slots, he, hb]⟩
      · split at hf
        · cases hf
        · exact get?_of_find? hf

/-- The holder of a name has it. -/
theorem Heap.has_of_holder? {h : Heap} {name : String} {holder : EnvId} :
    ∀ {bound : Nat} {env : EnvId}, h.holder? name bound env = some holder → h.Has holder name
  | 0, _, hf => nomatch hf
  | bound + 1, env, hf => by
    rw [Heap.holder?] at hf
    split at hf
    · cases hf
    · rename_i e he
      split at hf
      · rename_i hc
        cases hf
        simp only [Heap.Has, Heap.slots, he]
        exact hc
      · split at hf
        · cases hf
        · exact has_of_holder? hf

/-! ## Globals -/

/-- Seen from the globals, a name is only looked up among them. -/
theorem Heap.get?_globals (h : Heap) (x : String) :
    h.get? .globals x = (h.slots .globals).get? x := by
  simp only [Heap.get?, Heap.find?, Heap.slots, EnvId.globals]
  cases h.environments[0]? with
  | none => rfl
  | some e =>
    dsimp only
    cases e.slots.get? x with
    | some a => rfl
    | none => cases e.parent <;> rfl

theorem Heap.holder?_globals (h : Heap) (x : String) :
    h.holder? x (EnvId.globals.index + 1) .globals =
      if (h.slots .globals).contains x then some .globals else none := by
  obtain he | ⟨e, he⟩ : h.environments[0]? = none ∨ ∃ e, h.environments[0]? = some e := by
    cases h.environments[0]? <;> simp
  · simp only [Heap.holder?, Heap.slots, EnvId.globals, he]
    rfl
  · simp only [Heap.holder?, Heap.slots, EnvId.globals, he]
    split
    · rfl
    · cases e.parent <;> rfl

/-! ## Lookup along a chain -/

namespace Heap

variable {h : Heap} {env outer : EnvId} {envs : List EnvId} {x : String} {bound : Nat}

theorem find?_of_has (hx : h.Has env x) :
    h.find? x (bound + 1) env = (h.slots env).get? x := by
  obtain ⟨a, ha⟩ := Option.isSome_iff_exists.mp hx
  rw [ha]
  unfold slots at ha
  unfold find?
  split at ha
  · cases ha
  · rename_i e he
    simp only [ha]

theorem holder?_of_has (hx : h.Has env x) : h.holder? x (bound + 1) env = some env := by
  unfold Has slots at hx
  unfold holder?
  split at hx
  · cases hx
  · rename_i e he
    simp only [hx, if_true]

theorem find?_of_not_has (hx : ¬ h.Has env x) :
    h.find? x (bound + 1) env = (h.parent? env).bind (h.find? x bound) := by
  unfold Has slots Slots.contains at hx
  rw [find?, parent?]
  cases he : h.environments[env.index]? with
  | none => rfl
  | some e =>
    simp only [he, Option.not_isSome_iff_eq_none] at hx
    simp only [hx]
    cases e.parent <;> rfl

theorem holder?_of_not_has (hx : ¬ h.Has env x) :
    h.holder? x (bound + 1) env = (h.parent? env).bind (h.holder? x bound) := by
  unfold Has slots at hx
  rw [holder?, parent?]
  cases he : h.environments[env.index]? with
  | none => rfl
  | some e =>
    simp only [he] at hx
    simp only [hx]
    cases e.parent <;> rfl

/-- The lookup along a chain ends at the closest environment that has the name. -/
theorem Chain.find?_of_closest (hc : h.Chain env envs) (hb : envs.length < bound) {d : Nat}
    (hd : envs[d]? = some outer) (hx : h.Has outer x)
    (hcloser : ∀ i e, i < d → envs[i]? = some e → ¬ h.Has e x) :
    h.find? x bound env = (h.slots outer).get? x ∧ h.holder? x bound env = some outer := by
  induction hc generalizing bound d with
  | globals _ _ => cases hd
  | @step env next rest hp hlt hc ih =>
    cases bound with
    | zero => cases hb
    | succ bound =>
      cases d with
      | zero =>
        obtain rfl : env = outer := Option.some.inj hd
        exact ⟨find?_of_has hx, holder?_of_has hx⟩
      | succ d =>
        have hn : ¬ h.Has env x := hcloser 0 env (Nat.succ_pos d) rfl
        rw [find?_of_not_has hn, holder?_of_not_has hn, hp]
        exact ih (Nat.lt_of_succ_lt_succ hb) hd fun i e hi he =>
          hcloser (i + 1) e (Nat.succ_lt_succ hi) he

/-- If no environment of a chain has the name, the lookup ends at the globals. -/
theorem Chain.find?_of_none (hc : h.Chain env envs) (hb : envs.length < bound)
    (hnone : ∀ e ∈ envs, ¬ h.Has e x) :
    h.find? x bound env = h.get? .globals x ∧
      h.holder? x bound env = h.holder? x (EnvId.globals.index + 1) .globals := by
  induction hc generalizing bound with
  | globals _ hp =>
    cases bound with
    | zero => cases hb
    | succ bound =>
      by_cases hx : h.Has .globals x
      · exact ⟨(find?_of_has hx).trans (find?_of_has hx).symm,
          (holder?_of_has hx).trans (holder?_of_has hx).symm⟩
      · rw [get?, find?_of_not_has hx, find?_of_not_has hx, holder?_of_not_has hx,
          holder?_of_not_has hx, hp]
        exact ⟨rfl, rfl⟩
  | @step env next rest hp hlt hc ih =>
    cases bound with
    | zero => cases hb
    | succ bound =>
      have hn : ¬ h.Has env x := hnone env (List.mem_cons_self ..)
      rw [find?_of_not_has hn, holder?_of_not_has hn, hp]
      exact ih (Nat.lt_of_succ_lt_succ hb) fun e he => hnone e (List.mem_cons_of_mem _ he)

end Heap

end ClassScript
