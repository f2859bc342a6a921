import ClassScript.Proofs.Evaluation.Origin

/-!
# Confinement

An evaluation only touches what it can reach (`Run.confined`).  However it ends, the
environments and objects that were there before and that its roots do not reach have the
same contents afterwards.  If it completes with a value, the value is plain, made by the
evaluation, or reachable in the new heap from the roots and from what the evaluation made;
and whatever older thing the value leads to was within reach of the roots before.

The roots of an expression or a statement are its environment and the globals, those of a
call are the callee, the arguments and the globals.
-/

namespace ClassScript

/-- The value that a completion hands on, if it hands one on. -/
def Completion.value? : Completion → Option Value
  | .returned a => some a
  | _ => none

namespace Run

/-- The end of an evaluation that started with the machine `m` and that only touches what the
roots reach.  What it hands on is the value of its result. -/
structure Confined {α : Type} (roots : Set Item) (value? : α → Option Value) (m : Machine)
    (r : EStateM.Result Abort Machine α) : Prop where
  /-- Environments that the roots do not reach are left as they are. -/
  environments : ∀ env : EnvId, env.index < m.heap.environments.size →
    ¬ m.heap.Reach roots (.env env) →
    (lastMachine r).heap.environments[env.index]? = m.heap.environments[env.index]?
  /-- Objects that the roots do not reach are left as they are. -/
  objects : ∀ id : ObjectId, id.index < m.heap.objects.size → ¬ m.heap.Reach roots (.object id) →
    (lastMachine r).heap.objects[id.index]? = m.heap.objects[id.index]?
  /-- The value comes from the roots or from what was made. -/
  origin : ∀ c m' a, r = .ok c m' → value? c = some a → m.heap.Yields roots m'.heap a
  /-- The value does not lead to an older environment that the roots did not reach. -/
  toEnvironments : ∀ c m' a, r = .ok c m' → value? c = some a → ∀ env : EnvId,
    env.index < m.heap.environments.size → m'.heap.Reach {.value a} (.env env) →
    m.heap.Reach roots (.env env)
  /-- The value does not lead to an older object that the roots did not reach. -/
  toObjects : ∀ c m' a, r = .ok c m' → value? c = some a → ∀ id : ObjectId,
    id.index < m.heap.objects.size → m'.heap.Reach {.value a} (.object id) →
    m.heap.Reach roots (.object id)

/-- A run that keeps to the territory of its roots, and whose result they yield, is confined. -/
theorem KeepsTo.toConfined {α : Type} {roots : Set Item} {value? : α → Option Value} {Q : α → Prop}
    {m : Machine} {x : Run α} (hg : .env .globals ∈ roots)
    (hkeeps : x.KeepsTo (m.heap.territory roots) Q)
    (hwithin : ∀ c a, Q c → value? c = some a → a.Within (m.heap.territory roots))
    (horigin : ∀ c m' a, x m = .ok c m' → value? c = some a → m.heap.Yields roots m'.heap a) :
    Confined roots value? m (x m) := by
  obtain ⟨hclosed, hspares, hresult⟩ := hkeeps m (Heap.closed_territory hg)
  have hreached : ∀ c m' a, x m = .ok c m' → value? c = some a → ∀ i : Item,
      m'.heap.Reach {.value a} i → i.Within (m.heap.territory roots) := by
    intro c m' a hr ha i hi
    rw [hr] at hclosed
    refine Heap.Closed.reach hclosed (fun j hj => ?_) hi
    obtain rfl : j = .value a := hj
    exact hwithin c a (hresult c m' hr) ha
  refine ⟨fun env hlt hunreached => hspares.environments env fun hin => ?_,
    fun id hlt hunreached => hspares.objects id fun hin => ?_, horigin,
    fun c m' a hr ha env hlt hi => ?_, fun c m' a hr ha id hlt hi => ?_⟩
  · exact hin.elim hunreached (Nat.not_le.mpr hlt)
  · exact hin.elim hunreached (Nat.not_le.mpr hlt)
  · exact (hreached c m' a hr ha _ hi).elim (fun hr => hr) fun hle =>
      absurd hle (Nat.not_le.mpr hlt)
  · exact (hreached c m' a hr ha _ hi).elim (fun hr => hr) fun hle =>
      absurd hle (Nat.not_le.mpr hlt)

variable (settings : Settings) (fuel depth : Nat) (m : Machine)

theorem evaluate_confined (env : EnvId) (e : Expr Binding) :
    Confined {.env env, .env .globals} some m (evaluate settings fuel depth env e m) := by
  have hroot : Item.env env ∈ m.heap.territory {.env env, .env .globals} := .inl (.root (.inl rfl))
  refine (run_keepsTo settings fuel depth (.node env (.expr e)) hroot).toConfined (.inr rfl)
    (fun c a hc ha => ?_) fun c m' a hr ha => ?_
  · cases ha
    exact hc
  · cases ha
    exact run_yields settings fuel depth (.node env (.expr e)) m c m' hr

theorem execute_confined (env : EnvId) (s : Stmt Binding) :
    Confined {.env env, .env .globals} Completion.value? m
      (execute settings fuel depth env s m) := by
  have hroot : Item.env env ∈ m.heap.territory {.env env, .env .globals} := .inl (.root (.inl rfl))
  refine (run_keepsTo settings fuel depth (.node env (.stmt s)) hroot).toConfined (.inr rfl)
    (fun c a hc ha => ?_) fun c m' a hr ha => ?_
  · cases c <;> cases ha
    exact hc
  · cases c <;> cases ha
    exact run_yields settings fuel depth (.node env (.stmt s)) m _ m' hr

/-- The roots of a call. -/
def callRoots (callee : Value) (values : List Value) : Set Item
  | .value a => a = callee ∨ a ∈ values
  | .env env => env = .globals
  | .object _ => False

/-- A call, with the checks before it. -/
def call (callee : Value) (values : List Value) (line : Nat) : Run Value := do
  checkCall settings depth callee values.length line
  invoke settings fuel (depth + 1) callee values

theorem call_confined (callee : Value) (values : List Value) (line : Nat) :
    Confined (callRoots callee values) some m
      (call settings fuel depth callee values line m) := by
  have hcode : Code.Within (m.heap.territory (callRoots callee values)) (.invoke callee values) :=
    ⟨Heap.within_of_reach (i := .value callee) (.root (.inl rfl)), fun a ha =>
      Heap.within_of_reach (i := .value a) (.root (.inr ha))⟩
  have hkeeps := (KeepsTo.checkCall settings depth callee values.length line).bind fun _ _ =>
    run_keepsTo settings fuel (depth + 1) _ hcode
  refine hkeeps.toConfined rfl (fun c a hc ha => ?_) fun c m' a hr ha => ?_
  · cases ha
    exact hc
  · cases ha
    obtain ⟨u, m₁, hcheck, hr⟩ := bind_eq_ok.mp hr
    have he := extends_stepLaw.checkCall settings depth callee values.length line m
    rw [hcheck] at he
    have hy := run_yields settings fuel (depth + 1) (.invoke callee values) m₁ c m' hr
    exact Heap.Yields.of_extends he (fun i hi => by obtain rfl : i = _ := hi; exact .inl rfl) hy

/-- An evaluation only touches what it can reach, in every heap: an expression and a statement
what is reached from their environment and the globals, a call what is reached from the callee,
the arguments and the globals. -/
theorem confined :
    (∀ env e, Confined {.env env, .env .globals} some m (evaluate settings fuel depth env e m)) ∧
    (∀ env s, Confined {.env env, .env .globals} Completion.value? m
      (execute settings fuel depth env s m)) ∧
    ∀ callee values line, Confined (callRoots callee values) some m
      (call settings fuel depth callee values line m) :=
  ⟨evaluate_confined settings fuel depth m, execute_confined settings fuel depth m,
    call_confined settings fuel depth m⟩

end Run

end ClassScript
