import ClassScript.Proofs.Scope.Site
import ClassScript.Value.Basic
import Mathlib.Data.List.Forall2

/-!
# Nesting

The sites within a program are those that resolution comes to from the top of the
program: through parts, into the bodies of blocks, and into the bodies of the
functions made there (`Within`).

If a program is legal and resolution reports nothing, every site within it is
*sound* (`Within.sound`): its open scopes hold no names but those they declare,
no mistake is reported at it, and in a class the scopes of `this` and of `super`
lie next to each other.
-/

namespace ClassScript

open Resolution

/-! ## Functions and blocks -/

/-- A place where a function is made. -/
structure FunctionSite where
  /-- The name of the function, if it has one. -/
  name : Option String
  /-- Whether it is the initializer of a class. -/
  isInitializer : Bool
  /-- What encloses its body. -/
  context : Context
  /-- The names that each scope around it declares in all. -/
  names : List (List String)
  /-- Its parameters. -/
  parameters : List Name
  /-- Its statements. -/
  body : List (Stmt Unit)
  /-- The state of the walk before its scope is opened. -/
  state : State

namespace FunctionSite

/-- The site of the body. -/
def entry (f : FunctionSite) : Site where
  context := f.context
  names := (f.parameters.map Name.text ++ declaredNames f.body) :: f.names
  node := .stmts f.body
  state := (introduceAll f.parameters { f.state with scopes := ∅ :: f.state.scopes }).2

/-- The function as a value of the given environment. -/
def code (f : FunctionSite) (scope : EnvId) : Closure where
  name := f.name
  parameters := f.parameters
  body := (resolveStmts f.context f.body f.entry.state).1
  scope := scope
  isInitializer := f.isInitializer

end FunctionSite

namespace Site

/-- The site of the body of a block. -/
def block? (w : Site) : Option Site :=
  match w.node with
  | .stmt (.block body) =>
      some { w with
        names := declaredNames body :: w.names
        node := .stmts body
        state := { w.state with scopes := ∅ :: w.scopes } }
  | _ => none

/-- The function that an expression or a declaration makes. -/
def function? (w : Site) : Option FunctionSite :=
  match w.node with
  | .expr (.lambda _ parameters body) =>
      some ⟨none, false, { w.context with function := .function }, w.names, parameters, body,
        w.state⟩
  | .stmt (.functionDecl (.mk name parameters body)) =>
      some ⟨some name.text, false, { w.context with function := .function }, w.names, parameters,
        body, (introduce name w.state).2⟩
  | _ => none

/-- The context of the methods of a class. -/
def classContext (w : Site) (derived : Bool) : Context :=
  { w.context with enclosingClass := if derived then .derived else .plain }

/-- The state of the walk inside the scopes of a class body. -/
def classState (derived : Bool) (s : State) : State :=
  { s with
    scopes := Slots.single "this" true ::
      if derived then Slots.single "super" true :: s.scopes else s.scopes }

/-- The names that the scopes of a class body declare, and those of the scopes
around it. -/
def classNames (derived : Bool) (names : List (List String)) : List (List String) :=
  ["this"] :: if derived then ["super"] :: names else names

/-- The methods of a class. -/
def methodSites (context : Context) (names : List (List String)) :
    List (Function Unit) → State → List FunctionSite
  | [], _ => []
  | .mk name parameters body :: rest, s =>
      ⟨some name.text, name.text = initializerName,
        { context with function := methodContext name }, names, parameters, body, s⟩ ::
      methodSites context names rest
        (resolveFunction context (methodContext name) (.mk name parameters body) s).2

/-- The methods of the class that a statement declares. -/
def methods (w : Site) : List FunctionSite :=
  match w.node with
  | .stmt (.classDecl name parent methods) =>
      methodSites (w.classContext parent.isSome) (classNames parent.isSome w.names) methods
        (classState parent.isSome
          (resolveSuperclass name parent (introduce name w.state).2).2)
  | _ => []

/-- The site of a whole program. -/
def top (p : Program Unit) : Site := ⟨⟨.topLevel, .none⟩, [], .stmts p, ⟨[], [], #[]⟩⟩

end Site

/-- The sites that resolution comes to from a site. -/
inductive Inside (w₀ : Site) : Site → Prop where
  | refl : Inside w₀ w₀
  | part {w w' : Site} : Inside w₀ w → w' ∈ w.parts → Inside w₀ w'
  | block {w w' : Site} : Inside w₀ w → w.block? = some w' → Inside w₀ w'
  | function {w : Site} {f : FunctionSite} : Inside w₀ w → w.function? = some f →
      Inside w₀ f.entry
  | method {w : Site} {f : FunctionSite} : Inside w₀ w → f ∈ w.methods → Inside w₀ f.entry

/-- The sites within a program. -/
abbrev Within (p : Program Unit) : Site → Prop := Inside (.top p)

/-! ## Soundness -/

/-- The closest scope with the name is the one at the distance `d`, and the name
is ready for use in it. -/
def Nearest (name : String) (scopes : List StaticScope) (d : Nat) : Prop :=
  scopes.findIdx? (·.contains name) = some d ∧
    ∃ scope, scopes[d]? = some scope ∧ scope.get? name = some true

/-- Inside a class there is a scope for `this`, and just around it one for
`super` if the class has a superclass. -/
def ClassScopes : ClassContext → List StaticScope → Prop
  | .none, _ => True
  | .plain, scopes => ∃ d, Nearest "this" scopes d
  | .derived, scopes => ∃ d, Nearest "this" scopes d ∧ Nearest "super" scopes (d + 1)

/-- A scope holds no names but the given ones, and those of them that are no names of
variables from the start. -/
structure Covers (scope : StaticScope) (names : List String) : Prop where
  mem : ∀ x, scope.contains x = true → x ∈ names
  special : ∀ x ∈ names, x = "this" ∨ x = "super" → scope.contains x = true

/-- Open scopes with the names that they declare in all. -/
structure Framed (context : Context) (names : List (List String))
    (scopes : List StaticScope) : Prop where
  covers : List.Forall₂ Covers scopes names
  classScopes : ClassScopes context.enclosingClass scopes

/-- A site at which nothing is wrong. -/
structure Site.Sound (w : Site) : Prop where
  framed : Framed w.context w.names w.scopes
  legal : w.node.Legal
  accepted : w.after.diagnostics = []
  declares : ∀ declared ∈ w.names.head?, ∀ x ∈ w.node.declared, x ∈ declared

/-- A function at which nothing is wrong. -/
structure FunctionSite.Sound (f : FunctionSite) : Prop where
  framed : Framed f.context f.names f.state.scopes
  ordinary : ∀ p ∈ f.parameters, p.Ordinary
  legal : legalStmts f.body
  accepted : f.entry.after.diagnostics = []

/-! ### Entering and opening scopes -/

theorem Slots.contains_set {α : Type} (s : Slots α) (x y : String) (a : α) :
    (s.set x a).contains y = true ↔ x = y ∨ s.contains y = true := by
  by_cases hx : x = y
  · subst hx
    simp [contains]
  · simp [contains, get?_set_of_ne _ _ hx, hx]

theorem Slots.contains_single {α : Type} (x y : String) (a : α) :
    (single x a).contains y = true ↔ x = y := by
  by_cases hx : x = y <;> simp [contains, get?, single, find?, hx]

/-- Another name may be entered in front of a name. -/
theorem Nearest.enter {name x : String} {scopes : List StaticScope} {d : Nat}
    (hn : Nearest name scopes d) (hx : x ≠ name) (ready : Bool) :
    Nearest name (enter x ready scopes) d := by
  obtain ⟨hf, scope, hs, hr⟩ := hn
  cases scopes with
  | nil => cases hs
  | cons first outer =>
    have hc : (first.set x ready).contains name = first.contains name := by
      simp [Slots.contains, Slots.get?_set_of_ne _ _ hx]
    refine ⟨by simpa [Resolution.enter, List.findIdx?_cons, hc] using hf, ?_⟩
    cases d with
    | zero =>
      obtain rfl : first = scope := Option.some.inj hs
      exact ⟨_, rfl, by rw [Slots.get?_set_of_ne _ _ hx, hr]⟩
    | succ d => exact ⟨scope, hs, hr⟩

/-- A scope without the name puts it one step further away. -/
theorem Nearest.push {name : String} {scopes : List StaticScope} {d : Nat}
    (hn : Nearest name scopes d) {scope : StaticScope} (hs : scope.contains name = false) :
    Nearest name (scope :: scopes) (d + 1) := by
  obtain ⟨hf, hr⟩ := hn
  exact ⟨by simp [List.findIdx?_cons, hs, hf], hr⟩

theorem Nearest.here {name : String} {scope : StaticScope} (hs : scope.get? name = some true)
    (scopes : List StaticScope) : Nearest name (scope :: scopes) 0 := by
  have hc : scope.contains name = true := by simp [Slots.contains, hs]
  exact ⟨by simp [List.findIdx?_cons, hc], scope, rfl, hs⟩

/-- Names that are declared do not stand in the way of `this` and `super`. -/
theorem ClassScopes.enter {c : ClassContext} {scopes : List StaticScope}
    (hc : ClassScopes c scopes) {x : String} (hx : x ≠ "this" ∧ x ≠ "super") (ready : Bool) :
    ClassScopes c (enter x ready scopes) := by
  cases c with
  | none => trivial
  | plain =>
    obtain ⟨d, hd⟩ := hc
    exact ⟨d, hd.enter hx.1 ready⟩
  | derived =>
    obtain ⟨d, ht, hs⟩ := hc
    exact ⟨d, ht.enter hx.1 ready, hs.enter hx.2 ready⟩

theorem ClassScopes.push {c : ClassContext} {scopes : List StaticScope}
    (hc : ClassScopes c scopes) : ClassScopes c (∅ :: scopes) := by
  cases c with
  | none => trivial
  | plain =>
    obtain ⟨d, hd⟩ := hc
    exact ⟨d + 1, hd.push rfl⟩
  | derived =>
    obtain ⟨d, ht, hs⟩ := hc
    exact ⟨d + 1, ht.push rfl, hs.push rfl⟩

namespace Framed

variable {context : Context} {names : List (List String)} {scopes : List StaticScope}

theorem enter (hf : Framed context names scopes) {x : String}
    (hd : ∀ declared ∈ names.head?, x ∈ declared) (hx : x ≠ "this" ∧ x ≠ "super")
    (ready : Bool) : Framed context names (enter x ready scopes) := by
  refine ⟨?_, hf.classScopes.enter hx ready⟩
  have hc := hf.covers
  cases hc with
  | nil => exact .nil
  | @cons scope declared outer rest hcovers htail =>
    refine .cons ⟨fun y hy => ?_, fun y hy hy' => ?_⟩ htail
    · rcases (Slots.contains_set ..).mp hy with rfl | hy
      · exact hd declared rfl
      · exact hcovers.mem y hy
    · exact (Slots.contains_set ..).mpr (.inr (hcovers.special y hy hy'))

theorem enterAll (hf : Framed context names scopes) {xs : List String}
    (hd : ∀ declared ∈ names.head?, ∀ x ∈ xs, x ∈ declared)
    (hx : ∀ x ∈ xs, x ≠ "this" ∧ x ≠ "super") :
    Framed context names (enterAll xs scopes) := by
  induction xs generalizing scopes with
  | nil => exact hf
  | cons x rest ih =>
    have hfirst := hf.enter (fun declared hm => hd declared hm x (List.mem_cons_self ..))
      (hx x (List.mem_cons_self ..)) true
    exact ih hfirst (fun declared hm y hy => hd declared hm y (List.mem_cons_of_mem _ hy))
      fun y hy => hx y (List.mem_cons_of_mem _ hy)

theorem introduce {s : State} (hf : Framed context names s.scopes) {name : Name}
    (hd : ∀ declared ∈ names.head?, name.text ∈ declared) (hn : name.Ordinary) :
    Framed context names (introduce name s).2.scopes := by
  rw [(Walks.introduce name s).scopes]
  exact hf.enter hd hn true

theorem push (hf : Framed context names scopes) {declared : List String}
    (hd : ∀ x ∈ declared, x ≠ "this" ∧ x ≠ "super") (kind : FunctionContext) :
    Framed { context with function := kind } (declared :: names) (∅ :: scopes) := by
  have hempty : Covers ∅ declared := by
    refine ⟨fun x hx => ?_, fun x hx hx' => ?_⟩
    · cases hx
    · exact absurd hx' (not_or.mpr (hd x hx))
  exact ⟨.cons hempty hf.covers, hf.classScopes.push⟩

/-- The scopes of a class body around its methods. -/
theorem classState (hf : Framed context names scopes) (derived : Bool) {s : State}
    (hs : s.scopes = scopes) :
    Framed { context with enclosingClass := if derived then .derived else .plain }
      (Site.classNames derived names) (Site.classState derived s).scopes := by
  subst hs
  have hsingle : ∀ x : String, Covers (Slots.single x true) [x] := by
    refine fun x => ⟨fun y hy => ?_, fun y hy _ => ?_⟩
    · rw [(Slots.contains_single ..).mp hy]
      exact List.mem_cons_self ..
    · exact (Slots.contains_single ..).mpr (List.mem_singleton.mp hy).symm
  cases derived with
  | false => exact ⟨.cons (hsingle _) hf.covers, 0, .here rfl _⟩
  | true =>
    have hsuper : Nearest "super" (Slots.single "super" true :: s.scopes) 0 := .here rfl _
    exact ⟨.cons (hsingle _) (.cons (hsingle _) hf.covers), 0, .here rfl _, hsuper.push rfl⟩

end Framed

/-! ### Sites below a sound one -/

variable {w w' : Site} {f : FunctionSite}

/-- The parts of a sound site are sound. -/
theorem Site.Sound.part (hs : w.Sound) (hw : w' ∈ w.parts) : w'.Sound := by
  obtain ⟨⟨hc, hn, hr⟩, hp⟩ := Site.partOf_of_mem_parts hs.legal hw
  have hmem : w'.node ∈ w.node.parts := by
    rw [← w.map_node_parts]
    exact List.mem_map_of_mem hw
  have hlegal := hs.legal.part w'.node hmem
  have haccepted : w'.after.diagnostics = [] := by
    rw [hs.accepted] at hr
    exact List.prefix_nil.mp hr
  have hframed := hs.framed
  rw [← hc, ← hn] at hframed
  have hdeclares := hs.declares
  rw [← hn] at hdeclares
  cases hp with
  | same hscopes _ hd =>
    rw [← hscopes] at hframed
    refine ⟨hframed, hlegal, haccepted, fun declared hm x hx => ?_⟩
    rw [hd] at hx
    cases hx
  | first s rest hnode hnode' hscopes =>
    rw [← hscopes] at hframed
    rw [hnode] at hdeclares
    simp only [Node.declared, declaredNames_cons s rest, List.mem_append] at hdeclares
    refine ⟨hframed, hlegal, haccepted, fun declared hm x hx => ?_⟩
    rw [hnode'] at hx
    exact hdeclares declared hm x (.inl hx)
  | initializer name value hnode hnode' hscopes =>
    have hl := hs.legal
    rw [hnode] at hl hdeclares
    have hx : ∀ declared ∈ w'.names.head?, name.text ∈ declared := fun declared hm =>
      hdeclares declared hm name.text (List.mem_cons_self ..)
    refine ⟨?_, hlegal, haccepted, fun declared hm x hx => ?_⟩
    · rw [hscopes]
      exact hframed.enter hx hl.1 false
    · rw [hnode'] at hx
      cases hx
  | rest s rest hnode hnode' hscopes =>
    have hl := hs.legal
    rw [hnode] at hl hdeclares
    simp only [Node.declared, declaredNames_cons s rest, List.mem_append] at hdeclares
    refine ⟨?_, hlegal, haccepted, fun declared hm x hx => ?_⟩
    · rw [hscopes]
      exact hframed.enterAll (fun declared hm x hx => hdeclares declared hm x (.inl hx))
        hl.1.ordinary
    · rw [hnode'] at hx
      exact hdeclares declared hm x (.inr hx)

/-- The body of a block at a sound site is sound. -/
theorem Site.Sound.block (hs : w.Sound) (hw : w.block? = some w') : w'.Sound := by
  obtain ⟨context, names, node, state⟩ := w
  unfold Site.block? at hw
  split at hw
  · rename_i body hnode
    obtain rfl : node = .stmt (.block body) := hnode
    cases hw
    have hordinary := Node.Legal.ordinary (n := .stmts body) hs.legal
    refine ⟨hs.framed.push hordinary context.function, hs.legal, hs.accepted,
      fun declared hm x hx => ?_⟩
    obtain rfl : declaredNames body = declared := Option.some.inj hm
    exact hx
  · cases hw

/-- The body of a function that is resolved soundly is sound. -/
theorem FunctionSite.Sound.entry (hf : f.Sound) : f.entry.Sound := by
  have hi := (Walks.introduceAll f.parameters { f.state with scopes := ∅ :: f.state.scopes }).scopes
  refine ⟨?_, hf.legal, hf.accepted, fun declared hm x hx => ?_⟩
  · show Framed f.context _ (introduceAll f.parameters _).2.scopes
    rw [hi]
    have hparameters : ∀ x ∈ f.parameters.map Name.text, x ≠ "this" ∧ x ≠ "super" := by
      intro x hx
      obtain ⟨p, hp, rfl⟩ := List.mem_map.mp hx
      exact hf.ordinary p hp
    refine (hf.framed.push (fun x hx => ?_) f.context.function).enterAll
      (fun declared hm x hx => ?_) hparameters
    · rcases List.mem_append.mp hx with hx | hx
      · exact hparameters x hx
      · exact Node.Legal.ordinary (n := .stmts f.body) hf.legal x hx
    · obtain rfl := Option.some.inj hm
      exact List.mem_append_left _ hx
  · obtain rfl := Option.some.inj hm
    exact List.mem_append_right _ hx

/-- A function that is made at a sound site is resolved soundly. -/
theorem Site.Sound.function (hs : w.Sound) (hw : w.function? = some f) : f.Sound := by
  obtain ⟨context, names, node, state⟩ := w
  unfold Site.function? at hw
  split at hw
  · rename_i line parameters body hnode
    obtain rfl : node = .expr (.lambda line parameters body) := hnode
    cases hw
    exact ⟨⟨hs.framed.covers, hs.framed.classScopes⟩, hs.legal.1, hs.legal.2, hs.accepted⟩
  · rename_i name parameters body hnode
    obtain rfl : node = .stmt (.functionDecl (.mk name parameters body)) := hnode
    cases hw
    have hd : ∀ declared ∈ names.head?, name.text ∈ declared := fun declared hm =>
      hs.declares declared hm name.text (List.mem_cons_self ..)
    have he : Framed context names (introduce name state).2.scopes :=
      hs.framed.introduce hd hs.legal.1
    exact ⟨⟨he.covers, he.classScopes⟩, hs.legal.2.1, hs.legal.2.2, hs.accepted⟩
  · cases hw

theorem Site.sound_of_mem_methodSites {context : Context} {names : List (List String)} :
    ∀ {methods : List (Function Unit)} {s : State}, Framed context names s.scopes →
      legalFunctions methods → (resolveMethods context methods s).2.diagnostics = [] →
      f ∈ methodSites context names methods s → f.Sound
  | [], _, _, _, _, hf => nomatch hf
  | .mk name parameters body :: rest, s, hframed, hl, ha, hf => by
    have hw := resolveFunction_walks context (methodContext name) (.mk name parameters body) hl.1 s
    have hr := resolveMethods_walks context rest hl.2
      (resolveFunction context (methodContext name) (.mk name parameters body) s).2
    rcases List.mem_cons.mp hf with rfl | hf
    · refine ⟨⟨hframed.covers, hframed.classScopes⟩, hl.1.2.1, hl.1.2.2, ?_⟩
      have ha' : (resolveMethods context rest (resolveFunction context (methodContext name)
          (.mk name parameters body) s).2).2.diagnostics = [] := ha
      have hp := hr.reports
      rw [ha'] at hp
      exact List.prefix_nil.mp hp
    · have hs : (resolveFunction context (methodContext name) (.mk name parameters body)
          s).2.scopes = s.scopes := hw.scopes
      rw [← hs] at hframed
      exact sound_of_mem_methodSites hframed hl.2 ha hf

/-- The scopes of a class add no reports. -/
theorem Site.reports_inClass {α : Type} (derived : Bool) (step : Walk α) (s : State) :
    (inClass derived step s).2.diagnostics = (step (classState derived s)).2.diagnostics := by
  cases derived <;> rfl

theorem Site.classDecl_of_mem_methods (hf : f ∈ w.methods) :
    ∃ name parent methods, w.node = .stmt (.classDecl name parent methods) := by
  unfold Site.methods at hf
  split at hf
  · rename_i name parent methods hn
    exact ⟨name, parent, methods, hn⟩
  · cases hf

/-- So are the methods of a class that is declared there. -/
theorem Site.Sound.method (hs : w.Sound) (hf : f ∈ w.methods) : f.Sound := by
  obtain ⟨name, parent, methods, hnode⟩ := Site.classDecl_of_mem_methods hf
  obtain ⟨context, names, node, state⟩ := w
  obtain rfl : node = .stmt (.classDecl name parent methods) := hnode
  have hd : ∀ declared ∈ names.head?, name.text ∈ declared := fun declared hm =>
    hs.declares declared hm name.text (List.mem_cons_self ..)
  have he : Framed context names (introduce name state).2.scopes :=
    hs.framed.introduce hd hs.legal.1
  have hr := (Walks.resolveSuperclass name parent (introduce name state).2).scopes
  let w : Site := ⟨context, names, .stmt (.classDecl name parent methods), state⟩
  have ha : (resolveMethods (w.classContext parent.isSome) methods
      (Site.classState parent.isSome
        (resolveSuperclass name parent (introduce name state).2).2)).2.diagnostics = [] := by
    rw [← resolveSuperclass_isSome name parent (introduce name state).2, ← Site.reports_inClass]
    exact hs.accepted
  exact Site.sound_of_mem_methodSites (he.classState parent.isSome hr) hs.legal.2 ha hf

/-- All sites inside of a sound site are sound. -/
theorem Inside.sound {w₀ : Site} (hs : w₀.Sound) (hw : Inside w₀ w) : w.Sound := by
  induction hw with
  | refl => exact hs
  | part _ hw ih => exact ih.part hw
  | block _ hw ih => exact ih.block hw
  | function _ hf ih => exact (ih.function hf).entry
  | method _ hf ih => exact (ih.method hf).entry

theorem Inside.trans {w₀ w₁ w₂ : Site} (hw : Inside w₀ w₁) (hw' : Inside w₁ w₂) :
    Inside w₀ w₂ := by
  induction hw' with
  | refl => exact hw
  | part _ h ih => exact ih.part h
  | block _ h ih => exact ih.block h
  | function _ h ih => exact ih.function h
  | method _ h ih => exact ih.method h

/-- Every site within a program that breaks no rule is sound. -/
theorem Within.sound {p : Program Unit} (hl : legalStmts p)
    (ha : (Resolution.ofProgram p).diagnostics = []) (hw : Within p w) : w.Sound :=
  have htop : (Site.top p).Sound := ⟨⟨.nil, trivial⟩, hl, ha, fun _ hm => nomatch hm⟩
  Inside.sound htop hw

end ClassScript
