import ClassScript.Proofs.Evaluation.Properties
import ClassScript.Proofs.Heap.Classes
import ClassScript.Proofs.Session.Succession

/-!
# Classes in sessions

A program gets hold of a class by a variable, a field or the value of an expression, directly
or as the class of an object, and of its superclasses along with it (`Class.InSight`).  Each
of them was made by one visit of a declaration, after its superclass, so numbers go down along
the line of a class, and a number stands for one class in all of a session
(`History.declares_unique`).

A property that is read is the field of that very object, if an assignment to it is over by
then, and otherwise the method that is found along the line (`PropertyRead`).

`History.hierarchy` puts this together.
-/

namespace ClassScript

open Resolution Run

/-- The classes that a value leads to: its class, or itself, with the superclasses. -/
def Value.classes : Value → List Class
  | .classRef c => c.line
  | .object _ c => c.line
  | _ => []

section

variable (settings : Settings) (s : Session) (roots : List Root)

/-- At some time a program has the class, in a variable, in a field or as the value of an
expression. -/
inductive Class.InSight : Class → Prop where
  | slot {h : Heap} {env : EnvId} {x : String} {a : Value} {c : Class} :
      Moment settings roots s h → (h.slots env).get? x = some a → c ∈ a.classes → InSight c
  | field {h : Heap} {o : ObjectId} {x : String} {a : Value} {c : Class} :
      Moment settings roots s h → h.field? o x = some a → c ∈ a.classes → InSight c
  | value {fuel depth : Nat} {env : EnvId} {e : Expr Binding} {m m' : Machine} {a : Value}
      {c : Class} : Reached settings roots ⟨fuel, depth, .node env (.expr e), m⟩ →
      evaluate settings fuel depth env e m = .ok a m' → c ∈ a.classes → InSight c

/-- The first visit is over when the second one ends. -/
def Visit.DoneBy (u v : Visit) : Prop := Over settings roots u v ∨ v.Covers settings u

/-- What comes of reading a property of the object when the visit `q` is over, which has left
the machine `m`. -/
inductive PropertyRead (q : Visit) (o : ObjectId) (definition : Class) (property : Name)
    (m : Machine) : EStateM.Result Abort Machine Value → Prop where
  /-- The field was set on the object. -/
  | field {u : Visit} {a : Value} : u.Sets settings o property.text a →
      u.DoneBy settings roots q → m.heap.field? o property.text = some a →
      PropertyRead q o definition property m (.ok a m)
  /-- It was not, and the class finds a method. -/
  | method {method bound : Closure} {id : Nat} {m' : Machine} :
      (∀ (u : Visit) a, u.Sets settings o property.text a → ¬ u.DoneBy settings roots q) →
      definition.findMethod? property.text = some method →
      bound.Binds method (.object o definition) m'.heap →
      PropertyRead q o definition property m (.ok (.function id bound) m')
  /-- There is neither. -/
  | undefined {f : Failure} :
      (∀ (u : Visit) a, u.Sets settings o property.text a → ¬ u.DoneBy settings roots q) →
      definition.findMethod? property.text = none →
      f.error.message = "Undefined property '" ++ property.text ++ "'." → f.line = property.line →
      PropertyRead q o definition property m (.error (.failure f) m)

/-- Classes are what their declarations made, and methods are found along their lines. -/
structure Hierarchy : Prop where
  /-- From each class in sight one comes to one without a superclass.  No class is met twice,
  since the numbers go down. -/
  ends : ∀ {c : Class}, c.InSight settings s roots →
    c.line.IsChain (fun k parent => k.superclass = some parent) ∧
      c.line.Pairwise (fun k parent => parent.id < k.id) ∧
      ∃ base, c.line.getLast? = some base ∧ base.superclass = none
  /-- The closest class that has a method of the name gives it. -/
  finds : ∀ (c : Class) (x : String),
    c.findMethod? x = c.line.findSome? fun k => k.methods.get? x
  /-- So does the closest initializer for the number of arguments. -/
  arity : ∀ c : Class, c.arity = ((c.line.findSome? fun k => k.methods.get? initializerName).map
    (·.parameters.length)).getD 0
  /-- What a class has of its own is the last one of that name that its declaration has. -/
  written : ∀ {c : Class}, c.InSight settings s roots →
    ∃ v env methods, Reached settings roots v ∧ v.Declares settings env methods c ∧
      ∀ x, c.methods.get? x = (methods.filter (·.name.text = x)).getLast?.map
        (methodCode (methodEnv v.machine env c.superclass))
  /-- A property that is read is the field that was set on that object, or else the method of
  that object, or else it is undefined. -/
  reads : ∀ {n depth : Nat} {env : EnvId} {object : Expr Binding} {property : Name}
    {m m' : Machine} {o : ObjectId} {definition : Class},
    Reached settings roots ⟨n + 1, depth, .node env (.expr (.get object property)), m⟩ →
    evaluate settings n depth env object m = .ok (.object o definition) m' →
    PropertyRead settings roots ⟨n, depth, .node env (.expr object), m⟩ o definition property m'
      (evaluate settings (n + 1) depth env (.get object property) m)
  /-- A class is the same whenever one has it. -/
  fixed : ∀ {c c' : Class}, c.InSight settings s roots → c'.InSight settings s roots →
    c.id = c'.id → c = c'

end

variable {settings : Settings} {s : Session} {roots : List Root} {u v v' : Visit}

/-! ## Classes in sight are known -/

section

variable {ν : Naming} {h : Heap} {c k : Class} {a : Value}

theorem Class.Known.of_mem_line (hc : c.Known settings roots ν h) (hk : k ∈ c.line) :
    k.Known settings roots ν h := by
  induction c using Class.superInduction with
  | step c ih =>
    cases hs : c.superclass with
    | none =>
      rw [Class.line_of_none hs, List.mem_singleton] at hk
      exact hk ▸ hc
    | some parent =>
      rw [Class.line_of_some hs, List.mem_cons] at hk
      rcases hk with rfl | hk
      · exact hc
      · exact ih parent hs (hc.superclass hs) hk

theorem Value.Known.of_mem_classes (ha : a.Known settings roots ν h) (hc : c ∈ a.classes) :
    c.Known settings roots ν h := by
  cases a with
  | classRef d => exact Class.Known.of_mem_line ha hc
  | object id d => exact Class.Known.of_mem_line ha.2 hc
  | _ => cases hc

/-- The numbers go down along the line of a known class. -/
theorem Class.Known.pairwise_line (hc : c.Known settings roots ν h) :
    c.line.Pairwise fun k parent => parent.id < k.id := by
  have hchain := c.isChain_line
  have hdown : c.line.IsChain fun k parent => parent.id < k.id := by
    refine hchain.imp_of_mem_imp fun k parent hk _ hs => ?_
    exact (hc.of_mem_line hk).declared.superclass parent hs
  exact hdown.pairwise

end

namespace History

variable (hb : settings.lookup = .bound) (hh : History settings s roots)
include hb hh

/-- What is known when a visit ends. -/
theorem ends_known (hv : Reached settings roots v) :
    ∃ ν, v.Known settings roots roots ν ∧ Ends settings roots roots
      (fun ν m a => v.code.ResultKnown settings roots ν m a) ν v.machine (v.run settings) := by
  obtain ⟨ν, hν⟩ := hh.known hb hv
  exact ⟨ν, hν, hν.run (hh.invariant hb).1 (List.Subset.refl _) hb _ v ν rfl⟩

/-- The heap is known at every moment. -/
theorem moment_known {h : Heap} (hm : Moment settings roots s h) :
    ∃ ν, h.Known settings roots ν := by
  have hinvariant := hh.invariant hb
  cases hm with
  | now => exact (hinvariant.2 roots hinvariant.1 (List.Subset.refl _)).2
  | @visit v _ hv hbounds =>
    obtain ⟨ν, hν, hend⟩ := hh.ends_known hb hv
    rcases hbounds with rfl | rfl
    · exact ⟨ν, hν.heap⟩
    · cases hrun : v.run settings with
      | ok a m =>
        rw [hrun] at hend
        obtain ⟨ν', hl, -⟩ := hend
        exact ⟨ν', by simpa [Visit.lastHeap, hrun, lastMachine] using hl.known⟩
      | error e m =>
        rw [hrun] at hend
        obtain ⟨-, ν', hl⟩ := hend
        exact ⟨ν', by simpa [Visit.lastHeap, hrun, lastMachine] using hl.known⟩

/-- The value of an expression is known. -/
theorem value_known {fuel depth : Nat} {env : EnvId} {e : Expr Binding} {m m' : Machine} {a : Value}
    (hv : Reached settings roots ⟨fuel, depth, .node env (.expr e), m⟩)
    (hr : evaluate settings fuel depth env e m = .ok a m') :
    ∃ ν, a.Known settings roots ν m'.heap := by
  obtain ⟨ν, -, hend⟩ := hh.ends_known hb hv
  rw [Visit.run, Code.run, hr] at hend
  obtain ⟨ν', -, ha⟩ := hend
  exact ⟨ν', ha⟩

theorem inSight_known {c : Class} (hc : c.InSight settings s roots) :
    ∃ ν h, c.Known settings roots ν h := by
  cases hc with
  | slot hm hx hc =>
    obtain ⟨ν, hk⟩ := hh.moment_known hb hm
    exact ⟨ν, _, (hk.values _ _ _ hx).of_mem_classes hc⟩
  | field hm hx hc =>
    obtain ⟨ν, hk⟩ := hh.moment_known hb hm
    exact ⟨ν, _, (hk.fields _ _ _ hx).of_mem_classes hc⟩
  | value hv hr hc =>
    obtain ⟨ν, ha⟩ := hh.value_known hb hv hr
    exact ⟨ν, _, ha.of_mem_classes hc⟩

end History

/-! ## Declarations are told apart by their numbers -/

section

variable {env env' : EnvId} {methods methods' : List (Function Binding)} {c c' : Class}

/-- A declaration takes the number of its class. -/
theorem Visit.Declares.nextId_lt (hd : v.Declares settings env methods c) :
    v.heap.nextId < (v.lastHeap settings).nextId := by
  obtain ⟨name, parent, hcode, -, -⟩ := hd.code
  obtain ⟨a, m, hrun⟩ := hd.completes
  obtain ⟨found, -, hm⟩ := Visit.run_classDecl hcode hrun
  have hid := nextId_openClass (v.machine.define env name.text .nil) env found
  rw [Visit.lastHeap, hrun, hm]
  show _ < (classMachine settings env name found methods v.machine).heap.nextId
  rw [classMachine, Machine.heap_noted]
  show _ < ((v.machine.define env name.text .nil).openClass env found).heap.nextId + 1
  rw [hid]
  exact Nat.lt_succ_self _

/-- A declaration has no parts. -/
theorem Visit.Declares.covers (hd : v.Declares settings env methods c)
    (hc : v.Covers settings u) : v = u := by
  obtain ⟨name, parent, hcode, -, -⟩ := hd.code
  cases hc with
  | refl => rfl
  | step hs _ _ =>
    obtain ⟨fuel, depth, code, m⟩ := v
    obtain rfl : code = .node env (.stmt (.classDecl name parent methods)) := hcode
    obtain ⟨-, hm⟩ := hs
    cases hm with
    | act _ hm => cases hm

/-- A class is declared once. -/
theorem History.declares_unique (hh : History settings s roots) (hv : Reached settings roots v)
    (hv' : Reached settings roots v') (hd : v.Declares settings env methods c)
    (hd' : v'.Declares settings env' methods' c') (hid : c.id = c'.id) : c = c' := by
  have law : Lasting settings roots Heap.Extends := extends_stepLaw.lasting
  have hstarts : v.heap.nextId = v'.heap.nextId := by rw [← hd.id, hid, hd'.id]
  have hlt := hd.nextId_lt
  have hlt' := hd'.nextId_lt
  rcases hv.ordered hv' with ho | ho | hc | hc
  · have hle := (ho.lasting hh law).nextId
    omega
  · have hle := (ho.lasting hh law).nextId
    omega
  · obtain rfl := hd.covers hc
    exact hd.unique hd'
  · obtain rfl := hd'.covers hc
    exact hd.unique hd'

end

/-! ## Where the value of a field comes from -/

section

variable {o : ObjectId} {x : String} {a : Value}

/-- What a session has in a field comes from an assignment. -/
theorem History.field_source (hh : History settings s roots) (hx : s.heap.field? o x = some a) :
    ∃ u, Reached settings roots u ∧ u.Sets settings o x a := by
  by_contra hnone
  have spans : Spans settings roots (FieldKept o x a) := by
    have law := fieldKept_quietLaw o x a
    refine ⟨law.refl, law.trans, fun {v} hv => Visit.fieldKept fun u hu hs => ?_⟩
    exact hnone ⟨u, hv.covers hu, hs⟩
  have hkept : s.heap.field? o x = some a → Heap.initial.field? o x = some a :=
    (hh.spans (R := fun h h' => h'.field? o x = some a → h.field? o x = some a) spans
      (List.Subset.refl _)).2.2
  rw [Heap.field?_initial] at hkept
  cases hkept hx

/-- What a field has before a statement of a program comes from an assignment that is over. -/
theorem Root.Comes.field_source (hh : History settings s roots) {r : Root} (hr : r ∈ roots)
    {w w₁ w₂ : Site} {m : Machine} (hc : r.Comes settings w m) (hp : w.parts = [w₁, w₂])
    (hx : m.heap.field? o x = some a) :
    ∃ u, Over settings roots u (r.visit w₁ m) ∧ u.Sets settings o x a := by
  induction hc generalizing w₁ w₂ with
  | start =>
    obtain ⟨earlier, later, he⟩ := List.append_of_mem hr
    obtain ⟨s', hh', hheap⟩ := hh.before he
    rw [hheap] at hx
    obtain ⟨u, hu, hs⟩ := hh'.field_source hx
    exact ⟨u, .program he hu (.root (List.mem_cons_self ..) .start hp), hs⟩
  | @next w w₃ w₄ m m' b hc hp' hrun ih =>
    have hnext : Over settings roots (r.visit w₃ m) (r.visit w₁ m') := .statement hr hc hp' hrun hp
    by_cases hin : ∃ u, (r.visit w₃ m).Covers settings u ∧ u.Sets settings o x a
    · obtain ⟨u, hu, hs⟩ := hin
      exact ⟨u, hnext.covered hu, hs⟩
    · have hkept := Visit.fieldKept fun u hu hs => hin ⟨u, hu, hs⟩
      rw [show (r.visit w₃ m).run settings = .ok b m' from hrun] at hkept
      obtain ⟨u, ho, hs⟩ := ih hp' (hkept hx)
      exact ⟨u, ho.trans hnext, hs⟩

/-- What a field has when a visit starts comes from an assignment that is over. -/
theorem Reached.field_source (hh : History settings s roots) (hv : Reached settings roots v)
    (hx : v.heap.field? o x = some a) :
    ∃ u, Over settings roots u v ∧ u.Sets settings o x a := by
  induction hv with
  | root hr hc hp => exact hc.field_source hh hr hp hx
  | @step i v v' hv hs ih =>
    by_cases hin : ∃ w u, v.StartsThen settings w v' ∧ w.Covers settings u ∧ u.Sets settings o x a
    · obtain ⟨w, u, hw, hu, hset⟩ := hin
      exact ⟨u, (Over.part hv hw).covered hu, hset⟩
    · have hkept := hs.fieldKept fun w u hw hu hset => hin ⟨w, u, hw, hu, hset⟩
      obtain ⟨u, ho, hset⟩ := ih (hkept hx)
      exact ⟨u, ho.into hs, hset⟩

/-- What a field has when a visit ends comes from an assignment that is over by then. -/
theorem Reached.field_source_last (hh : History settings s roots) (hv : Reached settings roots v)
    (hx : (v.lastHeap settings).field? o x = some a) :
    ∃ u : Visit, u.DoneBy settings roots v ∧ u.Sets settings o x a := by
  by_cases hin : ∃ u, v.Covers settings u ∧ u.Sets settings o x a
  · obtain ⟨u, hu, hs⟩ := hin
    exact ⟨u, .inr hu, hs⟩
  · have hkept := Visit.fieldKept fun u hu hs => hin ⟨u, hu, hs⟩
    obtain ⟨u, ho, hs⟩ := hv.field_source hh (hkept hx)
    exact ⟨u, .inl ho, hs⟩

/-- A law relates the end of a visit to that of one by whose end it is over. -/
theorem Visit.DoneBy.lasting (hh : History settings s roots) {R : Heap → Heap → Prop}
    (law : Lasting settings roots R) (hv : Reached settings roots v)
    (hd : u.DoneBy settings roots v) : R (u.lastHeap settings) (v.lastHeap settings) := by
  rcases hd with ho | hc
  · exact law.chain (ho.lasting hh law) (law.run hv)
  · exact law.leads_rest hv hc

theorem Visit.DoneBy.reached (hv : Reached settings roots v) (hd : u.DoneBy settings roots v) :
    Reached settings roots u :=
  hd.elim (fun ho => ho.reached.1) hv.covers

/-- A field that was set has a value. -/
theorem History.field_isSome (hb : settings.lookup = .bound) (hh : History settings s roots)
    (hv : Reached settings roots v) (hd : u.DoneBy settings roots v)
    (hs : u.Sets settings o x a) : ((v.lastHeap settings).field? o x).isSome := by
  have hu := hd.reached hv
  have hextends : Lasting settings roots Heap.Extends := extends_stepLaw.lasting
  obtain ⟨fuel, depth, env, e, m, definition, m₁, hstarts, hobject⟩ := hs.object
  obtain ⟨ν, hknown⟩ := hh.value_known hb (.step hu hstarts) hobject
  have hrest := hextends.rest hu hstarts
  rw [Visit.run, Code.run, hobject] at hrest
  have hset := hs.field? (Nat.lt_of_lt_of_le hknown.1 hrest.objects)
  exact hd.lasting hh fieldsStay_stepLaw.lasting hv o x (by rw [hset]; rfl)

end

/-! ## Properties -/

theorem History.propertyRead (hb : settings.lookup = .bound) (hh : History settings s roots)
    {n depth : Nat} {env : EnvId} {object : Expr Binding} {property : Name} {m m' : Machine}
    {o : ObjectId} {definition : Class}
    (hv : Reached settings roots ⟨n + 1, depth, .node env (.expr (.get object property)), m⟩)
    (hr : evaluate settings n depth env object m = .ok (.object o definition) m') :
    PropertyRead settings roots ⟨n, depth, .node env (.expr object), m⟩ o definition property m'
      (evaluate settings (n + 1) depth env (.get object property) m) := by
  let q : Visit := ⟨n, depth, .node env (.expr object), m⟩
  have hq : Reached settings roots q := .step (i := 0) hv ⟨rfl, .here ..⟩
  have hlast : q.lastHeap settings = m'.heap := by
    rw [Visit.lastHeap, Visit.run, Code.run, hr]
    rfl
  have hget : evaluate settings (n + 1) depth env (.get object property) m =
      getProperty o definition property m' := by
    simp only [evaluate, bind_apply, hr]
  rw [hget]
  cases hx : m'.heap.field? o property.text with
  | some a =>
    rw [← hlast] at hx
    obtain ⟨u, hd, hs⟩ := hq.field_source_last hh hx
    rw [hlast] at hx
    rw [getProperty_of_field hx]
    exact .field hs hd hx
  | none =>
    have hunset : ∀ (u : Visit) a, u.Sets settings o property.text a →
        ¬ u.DoneBy settings roots q := by
      intro u a hs hd
      have hsome := hh.field_isSome hb hq hd hs
      rw [hlast, hx] at hsome
      cases hsome
    cases hm : definition.findMethod? property.text with
    | some method =>
      obtain ⟨id, bound, m₂, hvalue, hbinds⟩ :=
        methodValue_binds method (.object o definition) m'
      rw [getProperty_of_method hx hm, hvalue]
      exact .method hunset hm hbinds
    | none =>
      rw [getProperty_of_none hx hm]
      exact .undefined hunset hm rfl rfl

/-- The classes of every history are in order. -/
theorem History.hierarchy (hb : settings.lookup = .bound) (hh : History settings s roots) :
    Hierarchy settings s roots where
  ends := fun {c} hc => by
    obtain ⟨ν, h, hknown⟩ := hh.inSight_known hb hc
    exact ⟨c.isChain_line, hknown.pairwise_line, c.getLast?_line⟩
  finds := Class.findMethod?_eq_findSome?
  arity := Class.arity_eq_findSome?
  written := fun {c} hc => by
    obtain ⟨ν, h, hknown⟩ := hh.inSight_known hb hc
    obtain ⟨v, env, methods, hv, hd⟩ := hknown.declared.visit
    refine ⟨v, env, methods, hv, hd, fun x => ?_⟩
    rw [hd.methods, get?_classMethods]
    exact Option.or_none ..
  reads := hh.propertyRead hb
  fixed := fun {c c'} hc hc' hid => by
    obtain ⟨ν, h, hknown⟩ := hh.inSight_known hb hc
    obtain ⟨ν', h', hknown'⟩ := hh.inSight_known hb hc'
    obtain ⟨v, env, methods, hv, hd⟩ := hknown.declared.visit
    obtain ⟨v', env', methods', hv', hd'⟩ := hknown'.declared.visit
    exact hh.declares_unique hv hv' hd hd' hid

/-- A program that gives the name of a class to a class below it, and declares one more. -/
theorem History.hierarchy_rebound : ∃ s r, ∃ c : Class, History (.standard 0 fun _ => 0) s [r] ∧
    c.InSight (.standard 0 fun _ => 0) s [r] ∧ c.line.map Class.name = ["B", "B", "A"] ∧
    Hierarchy (.standard 0 fun _ => 0) s [r] := by
  let source := "class A \x7b m() \x7b return 1; \x7d \x7d class B < A \x7b \x7d A = B; " ++
    "class B < A \x7b \x7d"
  have ha : Session.start.Accepts source := by
    unfold Session.Accepts
    decide +kernel
  have hh : History (.standard 0 fun _ => 0) _ _ := .run 20 .start ha
  have hline : (((Session.start.submit (.standard 0 fun _ => 0) 20 source).session.heap.slots
      .globals).get? "B").map (fun a => a.classes.map Class.name) = some ["B", "B", "A"] := by
    decide +kernel
  obtain ⟨a, hx, hnames⟩ := Option.map_eq_some_iff.mp hline
  have hclass : ∃ c : Class, a.classes = c.line := by
    cases a with
    | classRef c => exact ⟨c, rfl⟩
    | object id c => exact ⟨c, rfl⟩
    | _ => cases hnames
  obtain ⟨c, hc⟩ := hclass
  rw [hc] at hnames
  exact ⟨_, _, c, hh, .slot .now hx (hc ▸ c.self_mem_line), hnames, hh.hierarchy rfl⟩

end ClassScript
