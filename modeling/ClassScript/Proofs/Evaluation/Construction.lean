import ClassScript.Proofs.Evaluation.Properties
import ClassScript.Proofs.Evaluation.Transfer
import ClassScript.Proofs.Heap.Classes

/-!
# Construction of objects

A call of a class makes one object and has it for its value, however the initializer
ends (`Run.invoke_classRef_eq_ok`).  The object has the next number, and everything that
happens in the call happens when that number is taken (`Visit.Starts.objects_lt`).

The initializer is the closest one that is declared in the line of the class.  A call of
code that is marked as an initializer has the object that the code is bound to for its
value (`Run.runCode_initializer`).

Each parameter of a call gets its argument if there are as many of both
(`Run.get?_argumentSlots`).
-/

namespace ClassScript

/-- The number of parameters of the closest initializer in the line of a class, 0 if there
is none. -/
def Class.initializerArity (c : Class) : Nat :=
  ((c.line.findSome? fun k => k.methods.get? initializerName).map (·.parameters.length)).getD 0

namespace Run

variable {settings : Settings} {fuel depth line : Nat} {env : EnvId} {m m' : Machine} {a : Value}

/-! ## Calls -/

/-- What comes of the call of a class with the arguments. -/
inductive ClassCall (settings : Settings) (fuel depth line : Nat) (c : Class)
    (values : List Value) (m : Machine) : EStateM.Result Abort Machine Value → Prop where
  /-- There are more or fewer arguments than the closest initializer has parameters. -/
  | mismatch {f : Failure} : values.length ≠ c.initializerArity →
      f.error.message = "Expected " ++ toString c.initializerArity ++ " arguments but got " ++
        toString values.length ++ "." → f.line = line →
      ClassCall settings fuel depth line c values m (.error (.failure f) m)
  /-- There are too many calls in progress. -/
  | tooDeep {f : Failure} {m' : Machine} : values.length = c.initializerArity →
      settings.callLimit ≤ depth → f.error.message = "Stack overflow." → f.line = line →
      ClassCall settings fuel depth line c values m (.error (.failure f) m')
  /-- The class is called. -/
  | called : values.length = c.initializerArity → depth < settings.callLimit →
      ClassCall settings fuel depth line c values m
        (invoke settings fuel (depth + 1) (.classRef c) values
          (m.noted settings 2 (callNote (.classRef c) values.length)))

theorem evaluate_call_of_class {callee : Expr Binding} {arguments : List (Expr Binding)}
    {c : Class} {values : List Value} {m₁ m₂ : Machine}
    (hcallee : evaluate settings fuel depth env callee m = .ok (.classRef c) m₁)
    (hvalues : evaluateAll settings fuel depth env arguments m₁ = .ok values m₂) :
    ClassCall settings fuel depth line c values m₂
      (evaluate settings (fuel + 1) depth env (.call callee line arguments) m) := by
  have harity : c.initializerArity = c.arity := c.arity_eq_findSome?.symm
  simp only [evaluate, bind_apply, hcallee, hvalues, checkCall_apply, Value.arity?]
  by_cases hcount : values.length = c.arity
  · rw [if_pos hcount]
    by_cases hdepth : settings.callLimit ≤ depth
    · rw [if_pos hdepth]
      exact .tooDeep (hcount.trans harity.symm) hdepth rfl rfl
    · rw [if_neg hdepth]
      exact .called (hcount.trans harity.symm) (Nat.lt_of_not_le hdepth)
  · rw [if_neg hcount]
    exact .mismatch (harity ▸ hcount) (harity ▸ rfl) rfl

/-- A call that completes has called its callee with its arguments. -/
theorem evaluate_call_eq_ok {callee : Expr Binding} {arguments : List (Expr Binding)}
    (h : evaluate settings (fuel + 1) depth env (.call callee line arguments) m = .ok a m') :
    ∃ (f : Value) (m₁ : Machine) (values : List Value) (m₂ m₃ : Machine),
      evaluate settings fuel depth env callee m = .ok f m₁ ∧
      evaluateAll settings fuel depth env arguments m₁ = .ok values m₂ ∧ m₃.heap = m₂.heap ∧
      Visit.Starts settings 2 ⟨fuel + 1, depth, .node env (.expr (.call callee line arguments)), m⟩
        ⟨fuel, depth + 1, .invoke f values, m₃⟩ ∧
      invoke settings fuel (depth + 1) f values m₃ = .ok a m' := by
  simp only [evaluate] at h
  obtain ⟨f, m₁, hcallee, h⟩ := bind_eq_ok.mp h
  obtain ⟨values, m₂, hvalues, h⟩ := bind_eq_ok.mp h
  obtain ⟨checked, m₃, hcheck, h⟩ := bind_eq_ok.mp h
  refine ⟨f, m₁, values, m₂, m₃, hcallee, hvalues, ?_,
    ⟨rfl, .call hcallee (.call hvalues (.act hcheck (.here ..)))⟩, h⟩
  rw [checkCall_apply] at hcheck
  split at hcheck
  · cases hcheck
  · split at hcheck
    · split at hcheck <;> cases hcheck
      exact Machine.heap_noted ..
    · cases hcheck

/-- A call of a function that completes has run its code. -/
theorem invoke_function_eq_ok {id : Nat} {code : Closure} {values : List Value}
    (h : invoke settings fuel depth (.function id code) values m = .ok a m') :
    ∃ n, Visit.Starts settings 0 ⟨fuel, depth, .invoke (.function id code) values, m⟩
      ⟨n, depth, .closure code values, m⟩ ∧ runCode settings n depth code values m = .ok a m' := by
  cases fuel with
  | zero =>
    simp only [invoke] at h
    cases h
  | succ n =>
    simp only [invoke] at h
    exact ⟨n, ⟨rfl, .here ..⟩, h⟩

/-- The value of a completed call of an initializer is its object. -/
theorem runCode_initializer {code : Closure} {values : List Value} {object : Value}
    (hi : code.isInitializer) (h : runCode settings fuel depth code values m = .ok a m')
    (hthis : (m'.heap.slots code.scope).get? "this" = some object) : a = object := by
  obtain ⟨-, c, m₁, -, -, -, hvalue⟩ := body_of_runCode h
  have hown : m₁.heap.ancestorEnv code.scope 0 = .ok code.scope := rfl
  simp only [callValue, hi, if_true, readAt, Heap.getAt, hown] at hvalue
  cases hslot : (m₁.heap.slots code.scope).get? "this" with
  | none =>
    rw [hslot] at hvalue
    cases hvalue
  | some b =>
    rw [hslot] at hvalue
    cases hvalue
    rw [hslot] at hthis
    exact Option.some.inj hthis

/-! ## New objects -/

theorem extends_of_runCode {code : Closure} {values : List Value}
    (h : runCode settings fuel depth code values m = .ok a m') : m.heap.Extends m'.heap := by
  have hextends := extends_stepLaw.run settings fuel depth (.closure code values) m
  rw [Code.run, h] at hextends
  exact hextends

/-- The value of a completed call of a class is the object with the next number, which is
taken by then. -/
theorem invoke_classRef_eq_ok {c : Class} {values : List Value}
    (h : invoke settings fuel depth (.classRef c) values m = .ok a m') :
    a = .object m.heap.nextObject c ∧ m.heap.objects.size < m'.heap.objects.size := by
  cases fuel with
  | zero =>
    simp only [invoke] at h
    cases h
  | succ fuel =>
    simp only [invoke] at h
    obtain ⟨object, m₁, hobject, h⟩ := bind_eq_ok.mp h
    cases hobject
    have hnew : m.heap.objects.size < m.heap.pushObject.objects.size := by
      simp [Heap.pushObject]
    cases hm : c.findMethod? initializerName with
    | none =>
      rw [hm] at h
      cases h
      exact ⟨rfl, hnew⟩
    | some method =>
      rw [hm] at h
      obtain ⟨code, m₂, hbind, h⟩ := bind_eq_ok.mp h
      cases hbind
      obtain ⟨b, m₃, hrun, h⟩ := bind_eq_ok.mp h
      cases h
      exact ⟨rfl, Nat.lt_of_lt_of_le hnew (extends_of_runCode hrun).objects⟩

end Run

/-- When anything starts in the call of a class, the number of the object is taken. -/
theorem Visit.Starts.objects_lt {settings : Settings} {v u : Visit} {i : Nat} {c : Class}
    {values : List Value} (hs : v.Starts settings i u)
    (hc : v.code = .invoke (.classRef c) values) :
    v.heap.objects.size < u.heap.objects.size := by
  obtain ⟨fuel, depth, code, m⟩ := v
  obtain ⟨fuel', depth', code', m'⟩ := u
  obtain rfl : code = .invoke (.classRef c) values := hc
  obtain ⟨-, hmeets⟩ := hs
  cases hmeets with
  | act hobject hmeets =>
    cases hobject
    cases hm : c.findMethod? initializerName with
    | none =>
      simp only [hm] at hmeets
      cases hmeets
    | some method =>
      simp only [hm] at hmeets
      cases hmeets with
      | act hbind hmeets =>
        cases hbind
        cases hmeets with
        | here =>
          show m.heap.objects.size < m.heap.pushObject.objects.size
          simp [Heap.pushObject]
        | call _ hmeets => cases hmeets

/-! ## Arguments -/

namespace Run

theorem get?_argumentSlots_of_notMem {x : String} : ∀ {parameters : List Name}
    {values : List Value} {slots : Slots Value}, x ∉ parameters.map Name.text →
      (argumentSlots parameters values slots).get? x = slots.get? x
  | [], _, _, _ => by unfold argumentSlots; rfl
  | _ :: _, [], _, _ => rfl
  | name :: rest, value :: values, slots, hx => by
    obtain ⟨hne, hrest⟩ := List.ne_and_not_mem_of_not_mem_cons hx
    rw [argumentSlots, get?_argumentSlots_of_notMem hrest, Slots.get?_set_of_ne _ _ (Ne.symm hne)]

/-- If the parameters have different names then each of them has its argument. -/
theorem get?_argumentSlots {x : String} {a : Value} : ∀ {parameters : List Name}
    {values : List Value} {slots : Slots Value}, (parameters.map Name.text).Nodup →
      (x, a) ∈ (parameters.map Name.text).zip values →
      (argumentSlots parameters values slots).get? x = some a
  | name :: rest, value :: values, slots, hnodup, hmem => by
    obtain ⟨hname, hrest⟩ := List.nodup_cons.mp hnodup
    rw [argumentSlots]
    rcases List.mem_cons.mp hmem with hfirst | hmem
    · cases hfirst
      rw [get?_argumentSlots_of_notMem hname, Slots.get?_set_self]
    · exact get?_argumentSlots hrest hmem
  | [], _, _, _, hmem => by cases hmem
  | _ :: _, [], _, _, hmem => by cases hmem

end Run

end ClassScript
