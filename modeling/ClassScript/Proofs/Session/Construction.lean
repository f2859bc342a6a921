import ClassScript.Proofs.Evaluation.Construction
import ClassScript.Proofs.Session.Receiver

/-!
# Construction of objects in sessions

The calls of classes that the programs of a history come to each make an object of their
own: what the session knows at the start of one has smaller numbers, and of two such calls
one takes its number before the other one starts (`History.construction_unique`).

The method that a class finds is an initializer if and only if it is found under that name
(`History.isInitializer_of_findMethod`), as the class that declares it decides by the name.
When it is bound, the closest `this` is the object at every later moment
(`History.bound_at`), so a call of it has no other value.

Parameters of one function have different names (`FunctionSite.Sound.nodup`), and no call
runs code with more or fewer arguments, so each parameter has its argument.

`History.constructions` puts this together.
-/

namespace ClassScript

open Resolution Run

/-- The object is not there yet. -/
structure ObjectId.New (o : ObjectId) (h : Heap) (values : List Value) : Prop where
  inVariables : ∀ env x c, (h.slots env).get? x ≠ some (.object o c)
  inFields : ∀ other x c, h.field? other x ≠ some (.object o c)
  inArguments : ∀ c, .object o c ∉ values
  noFields : ∀ x, h.field? o x = none

section

variable (settings : Settings) (s : Session) (roots : List Root)

/-- Classes make objects and initializers set them up. -/
structure Constructions : Prop where
  /-- The call of a class fails at its closing parenthesis if it has more or fewer arguments
  than the closest initializer has parameters, and only then for that reason. -/
  calls : ∀ {n depth line : Nat} {env : EnvId} {callee : Expr Binding}
    {arguments : List (Expr Binding)} {c : Class} {values : List Value} {m m₁ m₂ : Machine},
    evaluate settings n depth env callee m = .ok (.classRef c) m₁ →
    evaluateAll settings n depth env arguments m₁ = .ok values m₂ →
    ClassCall settings n depth line c values m₂
      (evaluate settings (n + 1) depth env (.call callee line arguments) m)
  /-- If the call completes then its value is a new object of that class. -/
  makes : ∀ {n depth line : Nat} {env : EnvId} {callee : Expr Binding}
    {arguments : List (Expr Binding)} {c : Class} {values : List Value} {m m₁ m₂ m' : Machine}
    {a : Value},
    Reached settings roots ⟨n + 1, depth, .node env (.expr (.call callee line arguments)), m⟩ →
    evaluate settings n depth env callee m = .ok (.classRef c) m₁ →
    evaluateAll settings n depth env arguments m₁ = .ok values m₂ →
    evaluate settings (n + 1) depth env (.call callee line arguments) m = .ok a m' →
    ∃ o : ObjectId, a = .object o c ∧ o.New m₂.heap values ∧ o.index < m'.heap.objects.size
  /-- No two calls make the same object. -/
  distinct : ∀ {fuel fuel' depth depth' : Nat} {c c' d d' : Class} {values values' : List Value}
    {m m₁ m' m₁' : Machine} {o : ObjectId},
    Reached settings roots ⟨fuel, depth, .invoke (.classRef c) values, m⟩ →
    Reached settings roots ⟨fuel', depth', .invoke (.classRef c') values', m'⟩ →
    invoke settings fuel depth (.classRef c) values m = .ok (.object o d) m₁ →
    invoke settings fuel' depth' (.classRef c') values' m' = .ok (.object o d') m₁' →
    (⟨fuel, depth, .invoke (.classRef c) values, m⟩ : Visit) =
      ⟨fuel', depth', .invoke (.classRef c') values', m'⟩
  /-- The methods with the name of initializers are the initializers. -/
  initializers : ∀ {c : Class} {x : String} {method : Closure}, c.InSight settings s roots →
    c.findMethod? x = some method → (method.isInitializer ↔ x = "init")
  /-- The call of an initializer on an object that is there has that object for its value,
  if it completes. -/
  again : ∀ {n depth line id : Nat} {env : EnvId} {callee : Expr Binding}
    {arguments : List (Expr Binding)} {bound method : Closure} {object a : Value}
    {m m₁ m' : Machine},
    Reached settings roots ⟨n + 1, depth, .node env (.expr (.call callee line arguments)), m⟩ →
    evaluate settings n depth env callee m = .ok (.function id bound) m₁ →
    MethodBound settings roots bound method object → method.isInitializer →
    evaluate settings (n + 1) depth env (.call callee line arguments) m = .ok a m' → a = object
  /-- Code that is run has as many arguments as parameters, and its parameters are bound to
  them. -/
  binds : ∀ {fuel depth i : Nat} {code : Closure} {values : List Value} {m : Machine} {u : Visit},
    Reached settings roots ⟨fuel, depth, .closure code values, m⟩ →
    values.length = code.parameters.length ∧
    (Visit.Starts settings i ⟨fuel, depth, .closure code values, m⟩ u →
      ∃ env, u.code = .node env (.stmts code.body) ∧
        ∀ x a, (x, a) ∈ (code.parameters.map Name.text).zip values →
          (u.heap.slots env).get? x = some a)

end

variable {settings : Settings} {s : Session} {roots : List Root} {u v : Visit}

/-! ## Parameters -/

/-- A name that is declared without a report is new in its scope. -/
theorem Resolution.contains_of_introduce {name : Name} {state : State} {scope : StaticScope}
    {outer : List StaticScope} (hs : state.scopes = scope :: outer)
    (hd : (introduce name state).2.diagnostics = []) : scope.contains name.text = false := by
  rw [Bool.eq_false_iff]
  intro hc
  have hinner : declaredInnermost name.text state.scopes := by
    rw [hs]
    exact hc
  have hreport : (introduce name state).2.diagnostics =
      state.diagnostics ++ [⟨name.line, .text name.text, .scope .alreadyDeclared⟩] := by
    show (((if declaredInnermost name.text state.scopes then
        Resolution.report name .alreadyDeclared >>= fun _ => modify _ else modify _) : Walk Unit)
          state).2.diagnostics = _
    rw [if_pos hinner]
    rfl
  rw [hreport] at hd
  exact absurd hd (by simp)

/-- Names that are introduced without a report are different, and new in their scope. -/
theorem Resolution.nodup_of_introduceAll : ∀ {names : List Name} {state : State}
    {scope : StaticScope} {outer : List StaticScope}, state.scopes = scope :: outer →
      (introduceAll names state).2.diagnostics = [] →
      (names.map Name.text).Nodup ∧ ∀ x ∈ names.map Name.text, scope.contains x = false
  | [], _, _, _, _, _ => ⟨List.nodup_nil, nofun⟩
  | name :: rest, state, scope, outer, hs, hd => by
    have hscopes : (introduce name state).2.scopes = scope.set name.text true :: outer := by
      rw [(Walks.introduce name state).scopes, hs]
      rfl
    have hfirst : (introduce name state).2.diagnostics = [] := by
      have hprefix := (Walks.introduceAll rest (introduce name state).2).reports
      rw [show (introduceAll rest (introduce name state).2).2.diagnostics = [] from hd] at hprefix
      exact List.prefix_nil.mp hprefix
    obtain ⟨hnodup, hfree⟩ := nodup_of_introduceAll hscopes hd
    refine ⟨List.nodup_cons.mpr ⟨fun hmem => ?_, hnodup⟩, List.forall_mem_cons.mpr
      ⟨contains_of_introduce hs hfirst, fun x hx => ?_⟩⟩
    · have hset := hfree name.text hmem
      rw [Bool.eq_false_iff] at hset
      exact hset ((Slots.contains_set ..).mpr (.inl rfl))
    · have hset := hfree x hx
      rw [Bool.eq_false_iff] at hset ⊢
      exact fun hc => hset ((Slots.contains_set ..).mpr (.inr hc))

/-- The parameters of a function have different names. -/
theorem FunctionSite.Sound.nodup {f : FunctionSite} (hf : f.Sound) :
    (f.parameters.map Name.text).Nodup := by
  have hreports := f.entry.reports hf.legal
  rw [hf.accepted] at hreports
  have hnone :
      (introduceAll f.parameters { f.state with scopes := ∅ :: f.state.scopes }).2.diagnostics
      = [] := List.prefix_nil.mp hreports
  exact (nodup_of_introduceAll rfl hnone).1

namespace History

variable (hb : settings.lookup = .bound) (hh : History settings s roots)
include hb hh

/-- Code that is run has an argument for each parameter, and no others. -/
theorem length_eq {code : Closure} {values : List Value} (hv : Reached settings roots v)
    (hc : v.code = .closure code values) : values.length = code.parameters.length := by
  obtain ⟨ν, hν⟩ := hh.known hb hv
  have hcode := hν.code
  rw [hc] at hcode
  exact hcode.2.2

theorem nodup_parameters {code : Closure} {values : List Value} (hv : Reached settings roots v)
    (hc : v.code = .closure code values) : (code.parameters.map Name.text).Nodup := by
  obtain ⟨ν, hν⟩ := hh.known hb hv
  have hcode := hν.code
  rw [hc] at hcode
  obtain ⟨⟨h₀, f, ρ, hmade, -, -⟩, -, -⟩ := hcode
  have hf := Made.fits (hh.invariant hb).1 hmade
  rw [hf.code]
  exact hf.sound.nodup

/-- The body of a call has its arguments in its variables. -/
theorem slots_of_call {i : Nat} {code : Closure} {values : List Value}
    (hv : Reached settings roots v) (hc : v.code = .closure code values)
    (hs : v.Starts settings i u) :
    ∃ env, u.code = .node env (.stmts code.body) ∧
      ∀ x a, (x, a) ∈ (code.parameters.map Name.text).zip values →
        (u.heap.slots env).get? x = some a := by
  obtain ⟨hcode, hm⟩ := hs.closure hc
  refine ⟨_, hcode, fun x a hx => ?_⟩
  rw [Visit.heap, hm, Machine.heap_pushEnv, Heap.slots_pushEnv_self]
  exact get?_argumentSlots (hh.nodup_parameters hb hv hc) hx

/-! ## Initializers -/

/-- The method that a class finds is an initializer if it is found under that name, and only
then. -/
theorem isInitializer_of_findMethod {c : Class} {x : String} {method : Closure}
    (hc : c.InSight settings s roots) (hm : c.findMethod? x = some method) :
    method.isInitializer ↔ x = initializerName := by
  obtain ⟨ν, h, hknown⟩ := hh.inSight_known hb hc
  rw [Class.findMethod?_eq_findSome?] at hm
  obtain ⟨k, hk, hx⟩ := List.exists_of_findSome?_eq_some hm
  obtain ⟨v, env, methods, -, hd⟩ := (hknown.of_mem_line hk).declared.visit
  rw [hd.methods, get?_classMethods] at hx
  obtain ⟨f, hf, hmethod⟩ := Option.map_eq_some_iff.mp ((Option.or_none ..).symm.trans hx)
  have hname := (List.mem_filter.mp (List.mem_of_getLast? hf)).2
  rw [← hmethod, methodCode, decide_eq_true_eq, of_decide_eq_true hname]

/-- Whenever code of a bound initializer has been run, it has the object for its value. -/
theorem runCode_of_bound {fuel depth : Nat} {bound method : Closure} {object a : Value}
    {values : List Value} {m m' : Machine}
    (hv : Reached settings roots ⟨fuel, depth, .closure bound values, m⟩)
    (hm : MethodBound settings roots bound method object) (hi : method.isInitializer)
    (hr : runCode settings fuel depth bound values m = .ok a m') : a = object := by
  obtain ⟨h₀, -, hbinds⟩ := hm.binds (s := s)
  have hbound : bound.isInitializer := by
    rw [hbinds.code]
    exact hi
  obtain ⟨⟨ρ, hchain⟩, -⟩ := hh.chain_closure hb hv rfl
  have hlt : bound.scope.index < m'.heap.environments.size :=
    (hchain.mono (extends_of_runCode hr).grows).lt_size
  exact runCode_initializer hbound hr (hh.bound_at hb hm (.last hv hr) hlt).1

/-- So has a call of the function. -/
theorem call_of_bound {n depth line id : Nat} {env : EnvId} {callee : Expr Binding}
    {arguments : List (Expr Binding)} {bound method : Closure} {object a : Value}
    {m m₁ m' : Machine}
    (hv : Reached settings roots ⟨n + 1, depth, .node env (.expr (.call callee line arguments)), m⟩)
    (hcallee : evaluate settings n depth env callee m = .ok (.function id bound) m₁)
    (hm : MethodBound settings roots bound method object) (hi : method.isInitializer)
    (hr : evaluate settings (n + 1) depth env (.call callee line arguments) m = .ok a m') :
    a = object := by
  obtain ⟨f, m₂, values, m₃, m₄, hf, -, -, hinvoke, hr⟩ := evaluate_call_eq_ok hr
  rw [hcallee] at hf
  cases hf
  obtain ⟨k, hclosure, hr⟩ := invoke_function_eq_ok hr
  exact hh.runCode_of_bound hb (.step (.step hv hinvoke) hclosure) hm hi hr

/-! ## Objects -/

/-- Nothing that is there when a class is called is the object that the call makes. -/
theorem new_object {c : Class} {values : List Value} (hv : Reached settings roots v)
    (hc : v.code = .invoke (.classRef c) values) : v.heap.nextObject.New v.heap values := by
  obtain ⟨ν, hν⟩ := hh.known hb hv
  have hcode := hν.code
  rw [hc] at hcode
  have hold : ∀ {a : Value}, a.Known settings roots ν v.heap →
      ∀ d, a ≠ .object v.heap.nextObject d := by
    rintro a ha d rfl
    exact Nat.lt_irrefl _ ha.1
  refine ⟨fun env x d hx => hold (hν.heap.values env x _ hx) d rfl,
    fun other x d hx => hold (hν.heap.fields other x _ hx) d rfl,
    fun d hd => hold (hcode.2.1 _ hd) d rfl, fun x => ?_⟩
  simp [Heap.field?, Heap.nextObject]

/-- The value of a completed call of a class is a new object of that class. -/
theorem object_of_call {n depth line : Nat} {env : EnvId} {callee : Expr Binding}
    {arguments : List (Expr Binding)} {c : Class} {values : List Value} {m m₁ m₂ m' : Machine}
    {a : Value}
    (hv : Reached settings roots ⟨n + 1, depth, .node env (.expr (.call callee line arguments)), m⟩)
    (hcallee : evaluate settings n depth env callee m = .ok (.classRef c) m₁)
    (hvalues : evaluateAll settings n depth env arguments m₁ = .ok values m₂)
    (hr : evaluate settings (n + 1) depth env (.call callee line arguments) m = .ok a m') :
    ∃ o : ObjectId, a = .object o c ∧ o.New m₂.heap values ∧ o.index < m'.heap.objects.size := by
  obtain ⟨f, m₃, values', m₄, m₅, hf, hvalues', hheap, hinvoke, hr⟩ := evaluate_call_eq_ok hr
  rw [hcallee] at hf
  cases hf
  rw [hvalues] at hvalues'
  cases hvalues'
  obtain ⟨rfl, hlt⟩ := invoke_classRef_eq_ok hr
  have hnew := hh.new_object hb (.step hv hinvoke) rfl
  rw [Visit.heap, hheap] at hnew
  exact ⟨_, by rw [hheap], hnew, Nat.lt_of_le_of_lt (by simp [Heap.nextObject, hheap]) hlt⟩

omit hb in
/-- Two calls of classes that make the same object are the same. -/
theorem construction_unique {c d : Class} {us vs : List Value} (hu : Reached settings roots u)
    (hv : Reached settings roots v) (hcu : u.code = .invoke (.classRef c) us)
    (hcv : v.code = .invoke (.classRef d) vs)
    (hlu : u.heap.objects.size < (u.lastHeap settings).objects.size)
    (hlv : v.heap.objects.size < (v.lastHeap settings).objects.size)
    (ho : u.heap.nextObject = v.heap.nextObject) : u = v := by
  have law : Lasting settings roots Heap.Extends := extends_stepLaw.lasting
  have hsize : u.heap.objects.size = v.heap.objects.size := congrArg ObjectId.index ho
  -- A call in the other one starts when that one has its object.
  have hcovers : ∀ {w w' : Visit} {k : Class} {ws : List Value}, Reached settings roots w →
      w.code = .invoke (.classRef k) ws → w.heap.objects.size = w'.heap.objects.size →
      w.Covers settings w' → w = w' := by
    intro w w' k ws hw hcode hsame hc
    cases hc with
    | refl => rfl
    | step hs _ hrest =>
      have hle := (law.leads (.step hw hs) hrest).2.objects
      exact absurd hsame (Nat.ne_of_lt (Nat.lt_of_lt_of_le (hs.objects_lt hcode) hle))
  rcases hu.ordered hv with hover | hover | hc | hc
  · have hle := (hover.lasting hh law).objects
    omega
  · have hle := (hover.lasting hh law).objects
    omega
  · exact hcovers hu hcu hsize hc
  · exact (hcovers hv hcv hsize.symm hc).symm

/-- In every history, each call of a class makes an object of its own, and initializers keep
to their objects. -/
theorem constructions : Constructions settings s roots where
  calls := evaluate_call_of_class
  makes hv hcallee hvalues hr := hh.object_of_call hb hv hcallee hvalues hr
  distinct {fuel fuel' depth depth' c c' _ _ values values' m m₁ m' m₁' o} hu hv hru hrv := by
    obtain ⟨hou, hlu⟩ := invoke_classRef_eq_ok hru
    obtain ⟨hov, hlv⟩ := invoke_classRef_eq_ok hrv
    injection hou with hou
    injection hov with hov
    refine hh.construction_unique hu hv rfl rfl ?_ ?_ (hou.symm.trans hov)
    · rw [Visit.lastHeap, Visit.run, Code.run, hru]
      exact hlu
    · rw [Visit.lastHeap, Visit.run, Code.run, hrv]
      exact hlv
  initializers hc hm := hh.isInitializer_of_findMethod hb hc hm
  again hv hcallee hm hi hr := hh.call_of_bound hb hv hcallee hm hi hr
  binds hv := ⟨hh.length_eq hb hv rfl, fun hs => hh.slots_of_call hb hv rfl hs⟩

omit hb hh in
/-- An inherited initializer that ends by `return` in a loop and sets a field of its own name,
which is called once more as a method. -/
theorem constructions_inherited : ∃ source r,
    History (.standard 0 fun _ => 0)
      (Session.start.submit (.standard 0 fun _ => 0) 40 source).session [r] ∧
    (Session.start.submit (.standard 0 fun _ => 0) 40 source).events =
      [.printed "B instance", .printed "true", .printed "false"] ∧
    Constructions (.standard 0 fun _ => 0)
      (Session.start.submit (.standard 0 fun _ => 0) 40 source).session [r] := by
  let source := "class A \x7b init(x) \x7b while (true) \x7b this.x = x; return; \x7d \x7d \x7d " ++
    "class B < A \x7b \x7d var b = B(1); print b; print b.init(2) == b; " ++
    "b.init = nil; print B(3) == b;"
  have ha : Session.start.Accepts source := by
    unfold Session.Accepts
    decide +kernel
  have hprinted : (Session.start.submit (.standard 0 fun _ => 0) 40 source).events =
      [.printed "B instance", .printed "true", .printed "false"] := by
    decide +kernel
  have hh : History (.standard 0 fun _ => 0) _ _ := .run 40 .start ha
  exact ⟨source, _, hh, hprinted, hh.constructions rfl⟩

end History

end ClassScript
