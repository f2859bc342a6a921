import ClassScript.Proofs.Heap.Growth

/-!
# Receivers

The variables `this` and `super` are made along with an environment and never set later, so
two heaps of one session *agree* on them wherever both have the environment (`Heap.Agrees`).

The *receiver* of an environment is the closest environment around it, or itself, that holds
`this` (`Heap.Receiver`).  It is the same in heaps that agree.
-/

namespace ClassScript

namespace Heap

/-- The second heap has everything that the first one has, with the same `this` and
`super`. -/
structure Keeps (h h' : Heap) : Prop extends h.Grows h' where
  special : ∀ (env : EnvId) (x : String), env.index < h.environments.size →
    x = "this" ∨ x = "super" → (h'.slots env).get? x = (h.slots env).get? x

/-- Environments that both heaps have lie in the same place, with the same `this` and
`super`. -/
structure Agrees (h h' : Heap) : Prop where
  parent : ∀ env : EnvId, env.index < h.environments.size → env.index < h'.environments.size →
    h'.parent? env = h.parent? env
  special : ∀ (env : EnvId) (x : String), env.index < h.environments.size →
    env.index < h'.environments.size → x = "this" ∨ x = "super" →
    (h'.slots env).get? x = (h.slots env).get? x

/-- Seen from the first environment, the closest one with `this` is the second one. -/
inductive Receiver (h : Heap) : EnvId → EnvId → Prop where
  | here {env : EnvId} : h.Has env "this" → Receiver h env env
  | outer {env parent receiver : EnvId} : ¬ h.Has env "this" → h.parent? env = some parent →
      Receiver h parent receiver → Receiver h env receiver

variable {h h' h'' : Heap} {env receiver receiver' : EnvId} {envs : List EnvId}

theorem Keeps.refl (h : Heap) : h.Keeps h := ⟨.refl h, fun _ _ _ _ => rfl⟩

theorem Keeps.trans (h12 : h.Keeps h') (h23 : h'.Keeps h'') : h.Keeps h'' where
  toGrows := h12.toGrows.trans h23.toGrows
  special env x hlt hx := by
    rw [h23.special env x (Nat.lt_of_lt_of_le hlt h12.size) hx, h12.special env x hlt hx]

theorem Keeps.agrees (hk : h.Keeps h') : h.Agrees h' :=
  ⟨fun env hlt _ => hk.parent env hlt, fun env x hlt _ hx => hk.special env x hlt hx⟩

theorem Agrees.symm (ha : h.Agrees h') : h'.Agrees h :=
  ⟨fun env hlt hlt' => (ha.parent env hlt' hlt).symm,
    fun env x hlt hlt' hx => (ha.special env x hlt' hlt hx).symm⟩

theorem keeps_of_environments_eq (he : h'.environments = h.environments) : h.Keeps h' where
  toGrows := grows_of_environments_eq he
  special env x _ _ := by simp only [slots, he]

theorem keeps_pushEnv (h : Heap) (parent : Option EnvId) (slots : Slots Value) :
    h.Keeps (h.pushEnv parent slots) where
  toGrows := grows_pushEnv h parent slots
  special env x hlt _ := by rw [slots_pushEnv_of_lt hlt]

/-- Setting a variable of another name keeps `this` and `super`. -/
theorem keeps_define (h : Heap) (env : EnvId) {name : String} (value : Value)
    (hn : name ≠ "this" ∧ name ≠ "super") : h.Keeps (h.define env name value) where
  toGrows := grows_define h env name value
  special other x hlt hx := by
    have hne : name ≠ x := by
      rcases hx with rfl | rfl
      · exact hn.1
      · exact hn.2
    by_cases he : env = other
    · subst he
      rw [slots_define_self hlt, Slots.get?_set_of_ne _ _ hne]
    · rw [slots_define_of_ne he]

/-- There is one receiver at most. -/
theorem Receiver.unique (hr : h.Receiver env receiver) (hr' : h.Receiver env receiver') :
    receiver = receiver' := by
  induction hr with
  | here hx =>
    cases hr' with
    | here => rfl
    | outer hn _ _ => exact absurd hx hn
  | outer hn hp _ ih =>
    cases hr' with
    | here hx => exact absurd hx hn
    | outer _ hp' hr' =>
      rw [hp] at hp'
      cases hp'
      exact ih hr'

/-- Heaps that agree have the same receivers. -/
theorem Receiver.agrees (hr : h.Receiver env receiver) (ha : h.Agrees h')
    (hc : h'.Chain env envs) : h'.Receiver env receiver := by
  induction hr generalizing envs with
  | here hx =>
    refine .here ?_
    rw [Has, Slots.contains, ha.special _ _ (lt_size_of_has hx) hc.lt_size (.inl rfl)]
    exact hx
  | @outer env parent receiver hn hp _ ih =>
    have hlt := lt_size_of_parent? hp
    have hp' : h'.parent? env = some parent := by rw [ha.parent _ hlt hc.lt_size, hp]
    have hn' : ¬ h'.Has env "this" := by
      rw [Has, Slots.contains, ha.special _ _ hlt hc.lt_size (.inl rfl)]
      exact hn
    cases hc with
    | globals _ hnone =>
      rw [hnone] at hp'
      cases hp'
    | step hp'' _ hc =>
      rw [hp'] at hp''
      cases hp''
      exact .outer hn' hp' (ih hc)

/-- Along a chain, the first environment with `this` is the receiver. -/
theorem Chain.receiver_of_getElem? (hc : h.Chain env envs) {d : Nat} (hd : envs[d]? = some receiver)
    (hx : h.Has receiver "this")
    (hbefore : ∀ i < d, ∀ other, envs[i]? = some other → ¬ h.Has other "this") :
    h.Receiver env receiver := by
  induction hc generalizing d with
  | globals _ _ => cases hd
  | @step env outer rest hp _ _ ih =>
    cases d with
    | zero =>
      obtain rfl : env = receiver := Option.some.inj hd
      exact .here hx
    | succ d =>
      refine .outer (hbefore 0 (Nat.succ_pos d) env rfl) hp (ih hd fun i hi other ho => ?_)
      exact hbefore (i + 1) (Nat.succ_lt_succ hi) other ho

/-- Each environment of a chain is the parent of the one before. -/
theorem Chain.parent?_of_getElem? (hc : h.Chain env envs) {d : Nat} {inner outer : EnvId}
    (hd : envs[d]? = some inner) (ho : envs[d + 1]? = some outer) :
    h.parent? inner = some outer := by
  induction hc generalizing d with
  | globals _ _ => cases hd
  | @step env next rest hp _ hrest ih =>
    cases d with
    | zero =>
      obtain rfl : env = inner := Option.some.inj hd
      cases hrest with
      | globals _ _ => cases ho
      | step _ _ _ =>
        obtain rfl : next = outer := Option.some.inj ho
        exact hp
    | succ d => exact ih hd ho

end Heap

end ClassScript
