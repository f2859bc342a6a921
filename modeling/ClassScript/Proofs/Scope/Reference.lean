import ClassScript.Proofs.Scope.Lockstep

/-!
# References

A node may refer to one name by itself: a variable that is read or assigned to,
`this`, `super`, or the superclass of a class.  At a sound site its binding is
the closest open scope that holds the name (`Site.Sound.binding`).  The name is
ready for use in that scope, except perhaps for a variable of a scope further out
whose initializer the site lies in.
-/

namespace ClassScript

open Resolution Run

/-- The variable that a node reads by itself, and its binding. -/
def Node.read? : Node Binding → Option (Name × Binding)
  | .expr (.variable target) => some (target.name, target.binding)
  | .stmt (.classDecl _ (some parent) _) => some (parent.name, parent.binding)
  | _ => none

/-- The name that a node refers to by itself, and its binding. -/
def Node.reference? : Node Binding → Option (String × Binding)
  | .expr (.assign target _) => some (target.name.text, target.binding)
  | .expr (.this _ binding) => some ("this", binding)
  | .expr (.super _ _ binding) => some ("super", binding)
  | n => n.read?.map fun target => (target.1.text, target.2)

/-! ## Bindings -/

theorem bindingOf_eq_local {x : String} {scopes : List StaticScope} {d : Nat} :
    bindingOf x scopes = .local d ↔ scopes.findIdx? (·.contains x) = some d := by
  unfold bindingOf
  cases scopes.findIdx? (·.contains x) <;> simp

theorem bindingOf_eq_global {x : String} {scopes : List StaticScope} :
    bindingOf x scopes = .global ↔ ∀ scope ∈ scopes, scope.contains x = false := by
  unfold bindingOf
  cases h : scopes.findIdx? (·.contains x) with
  | none => simpa using h
  | some d =>
    obtain ⟨hlt, hd, -⟩ := List.findIdx?_eq_some_iff_getElem.mp h
    refine iff_of_false (nomatch ·) fun hall => ?_
    rw [hall _ (List.getElem_mem hlt)] at hd
    cases hd

/-- The scope that a name is bound to holds it, and no scope further in does. -/
theorem holds_of_bindingOf {x : String} {scopes : List StaticScope} {d : Nat}
    (hb : bindingOf x scopes = .local d) :
    (∃ scope, scopes[d]? = some scope ∧ scope.contains x = true) ∧
      ∀ i scope, i < d → scopes[i]? = some scope → scope.contains x = false := by
  obtain ⟨hlt, hd, hbefore⟩ :=
    List.findIdx?_eq_some_iff_getElem.mp (bindingOf_eq_local.mp hb)
  refine ⟨⟨scopes[d], List.getElem?_eq_getElem hlt, hd⟩, fun i scope hi hs => ?_⟩
  obtain ⟨hilt, rfl⟩ := List.getElem?_eq_some_iff.mp hs
  simpa using hbefore i hi

theorem Nearest.bindingOf {x : String} {scopes : List StaticScope} {d : Nat}
    (hn : Nearest x scopes d) : bindingOf x scopes = .local d :=
  bindingOf_eq_local.mpr hn.1

theorem bindingOf_enter {x y : String} (hne : x ≠ y) (ready : Bool)
    (scopes : List StaticScope) : bindingOf y (enter x ready scopes) = bindingOf y scopes := by
  cases scopes with
  | nil => rfl
  | cons scope outer =>
    have hc : (scope.set x ready).contains y = scope.contains y := by
      simp [Slots.contains, Slots.get?_set_of_ne _ _ hne]
    simp [Resolution.bindingOf, enter, List.findIdx?_cons, hc]

theorem beingDeclared_enter {x y : String} (hne : x ≠ y) (ready : Bool)
    (scopes : List StaticScope) :
    beingDeclared y (enter x ready scopes) = beingDeclared y scopes := by
  cases scopes with
  | nil => rfl
  | cons scope outer => simp [beingDeclared, enter, Slots.get?_set_of_ne _ _ hne]

/-! ## Steps of the walk -/

theorem bind_fst (kind : ReferenceKind) (name : Name) (s : State) :
    (bind kind name s).1 = bindingOf name.text s.scopes := by
  unfold Resolution.bind
  dsimp only [Bind.bind, StateT.bind, get, getThe, MonadStateOf.get, StateT.get, Pure.pure]
  cases bindingOf name.text s.scopes <;> rfl

/-- A walk that starts with a report is not accepted. -/
theorem Resolution.Walks.report_ne_nil {α : Type} {names : List String} {step : Walk α}
    (hw : Walks names step) (word : Name) (error : ScopeError) (s : State) :
    (step (Resolution.report word error s).2).2.diagnostics ≠ [] := by
  intro hnil
  have hp := (hw (Resolution.report word error s).2).reports
  rw [hnil] at hp
  exact List.append_ne_nil_of_right_ne_nil s.diagnostics (List.cons_ne_nil _ _)
    (List.prefix_nil.mp hp)

theorem readVariable_apply (name : Name) (s : State) :
    readVariable name s =
      let s := if beingDeclared name.text s.scopes then (report name .readInOwnInitializer s).2
        else s
      (⟨name, (bind .variable name s).1⟩, (bind .variable name s).2) := by
  show (if beingDeclared name.text s.scopes then
      report name .readInOwnInitializer >>= fun _ =>
        bind .variable name >>= fun b => pure ⟨name, b⟩
    else bind .variable name >>= fun b => pure ⟨name, b⟩ : Walk (Reference Binding)) s = _
  split <;> rfl

theorem readVariable_fst (name : Name) (s : State) :
    (readVariable name s).1 = ⟨name, bindingOf name.text s.scopes⟩ := by
  rw [readVariable_apply]
  refine congrArg (Reference.mk name) ((bind_fst ..).trans ?_)
  split <;> rfl

/-- A variable is not read in the middle of its declaration without a report. -/
theorem not_beingDeclared_of_readVariable {name : Name} {s : State}
    (ha : (readVariable name s).2.diagnostics = []) :
    beingDeclared name.text s.scopes = false := by
  by_contra hb
  simp only [readVariable_apply, if_pos (by simpa using hb)] at ha
  exact (Walks.bindName .variable name).report_ne_nil _ _ s ha

theorem readThis_of_accepted {context : Context} {line : Nat} {s : State}
    (ha : (readThis context line s).2.diagnostics = []) :
    context.enclosingClass ≠ .none ∧ (readThis context line s).1 = bindingOf "this" s.scopes := by
  unfold readThis at ha ⊢
  cases hc : context.enclosingClass with
  | none =>
    rw [hc] at ha
    exact absurd ha ((Walks.pure Binding.global).report_ne_nil ⟨"this", line⟩ .thisOutsideClass s)
  | plain => exact ⟨nofun, bind_fst ..⟩
  | derived => exact ⟨nofun, bind_fst ..⟩

theorem readSuper_of_accepted {context : Context} {line : Nat} {s : State}
    (ha : (readSuper context line s).2.diagnostics = []) :
    context.enclosingClass = .derived ∧
      (readSuper context line s).1 = bindingOf "super" s.scopes := by
  have hw := Walks.bindName .super ⟨"super", line⟩
  unfold readSuper at ha ⊢
  cases hc : context.enclosingClass with
  | none =>
    rw [hc] at ha
    exact absurd ha (hw.report_ne_nil ⟨"super", line⟩ .superOutsideClass s)
  | plain =>
    rw [hc] at ha
    exact absurd ha (hw.report_ne_nil ⟨"super", line⟩ .superWithoutSuperclass s)
  | derived => exact ⟨rfl, bind_fst ..⟩

theorem resolveSuperclass_apply (name : Name) (parent : Reference Unit) (s : State) :
    resolveSuperclass name (some parent) s =
      let s := if parent.name.text = name.text then (report parent.name .inheritsFromItself s).2
        else s
      (some (readVariable parent.name s).1, (readVariable parent.name s).2) := by
  show (if parent.name.text = name.text then
      report parent.name .inheritsFromItself >>= fun _ =>
        readVariable parent.name >>= fun r => pure (some r)
    else readVariable parent.name >>= fun r => pure (some r) :
      Walk (Option (Reference Binding))) s = _
  split <;> rfl

theorem resolveSuperclass_fst (name : Name) (parent : Reference Unit) (s : State) :
    (resolveSuperclass name (some parent) s).1 =
      some ⟨parent.name, bindingOf parent.name.text s.scopes⟩ := by
  rw [resolveSuperclass_apply]
  refine congrArg some ((readVariable_fst ..).trans ?_)
  split <;> rfl

/-- A superclass that is accepted has a name of its own and is no variable in the
middle of its declaration. -/
theorem resolveSuperclass_of_accepted {name : Name} {parent : Reference Unit} {s : State}
    (ha : (resolveSuperclass name (some parent) s).2.diagnostics = []) :
    name.text ≠ parent.name.text ∧ beingDeclared parent.name.text s.scopes = false := by
  rw [resolveSuperclass_apply] at ha
  by_cases hne : parent.name.text = name.text
  · simp only [if_pos hne] at ha
    exact absurd ha ((Walks.readVariable parent.name).report_ne_nil _ _ s)
  · simp only [if_neg hne] at ha
    exact ⟨Ne.symm hne, not_beingDeclared_of_readVariable ha⟩

/-! ## References at sound sites -/

theorem Site.expr_of_resolved (w : Site) {e : Expr Binding} (hr : w.resolved = .expr e) :
    ∃ e', w.node = .expr e' ∧ (resolveExpr w.context e' w.state).1 = e := by
  obtain ⟨context, names, node, state⟩ := w
  cases node with
  | expr e' => exact ⟨e', rfl, Node.expr.inj hr⟩
  | elifs branches elseBranch => cases elseBranch <;> cases hr
  | _ => cases hr

theorem Site.stmt_of_resolved (w : Site) {s : Stmt Binding} (hr : w.resolved = .stmt s) :
    ∃ s', w.node = .stmt s' ∧ (resolveStmt w.context s' w.state).1 = s := by
  obtain ⟨context, names, node, state⟩ := w
  cases node with
  | stmt s' => exact ⟨s', rfl, Node.stmt.inj hr⟩
  | elifs branches elseBranch => cases elseBranch <;> cases hr
  | _ => cases hr

/-- Where a variable is read, and what it is bound to.  The superclass of a class
is read when the name of the class is in scope. -/
theorem Site.node_of_read (w : Site) {name : Name} {b : Binding}
    (hr : w.resolved.read? = some (name, b)) :
    (w.node = .expr (.variable ⟨name, ()⟩) ∧ b = bindingOf name.text w.scopes) ∨
      ∃ word methods, w.node = .stmt (.classDecl word (some ⟨name, ()⟩) methods) ∧
        b = bindingOf name.text (enter word.text true w.scopes) := by
  obtain ⟨context, names, node, state⟩ := w
  cases node with
  | expr e =>
    cases e with
    | «variable» target =>
      have hf : Node.read? (.expr (.variable (readVariable target.name state).1)) =
          some (name, b) := hr
      rw [readVariable_fst] at hf
      cases hf
      exact .inl ⟨rfl, rfl⟩
    | _ => cases hr
  | stmt s =>
    cases s with
    | classDecl word parent methods =>
      cases parent with
      | none => cases hr
      | some parent =>
        have hi : (introduce word state).2.scopes = enter word.text true state.scopes :=
          (Walks.introduce word state).scopes
        have hf : Node.read? (.stmt (.classDecl word
            (resolveSuperclass word (some parent) (introduce word state).2).1 _)) =
              some (name, b) := hr
        rw [resolveSuperclass_fst, hi] at hf
        cases hf
        exact .inr ⟨word, methods, rfl, rfl⟩
    | var word initializer => cases initializer <;> cases hr
    | ifStmt condition thenBranch elifs elseBranch => cases elseBranch <;> cases hr
    | returnStmt line value => cases value <;> cases hr
    | _ => cases hr
  | elifs branches elseBranch => cases elseBranch <;> cases hr
  | _ => cases hr

namespace Site.Sound

variable {w : Site}

/-- The superclass of a class that is accepted is another one, and no variable in the
middle of its declaration. -/
theorem superclass (hs : w.Sound) {word name : Name} {methods : List (Function Unit)}
    (hn : w.node = .stmt (.classDecl word (some ⟨name, ()⟩) methods)) :
    word.text ≠ name.text ∧ beingDeclared name.text w.scopes = false := by
  obtain ⟨context, names, node, state⟩ := w
  obtain rfl : node = .stmt (.classDecl word (some ⟨name, ()⟩) methods) := hn
  have hl := hs.legal
  have hi : (introduce word state).2.scopes = enter word.text true state.scopes :=
    (Walks.introduce word state).scopes
  let opened := resolveSuperclass word (some ⟨name, ()⟩) (introduce word state).2
  have hm := ((resolveMethods_walks { context with
    enclosingClass := if opened.1.isSome then .derived else .plain } methods hl.2).inClass
      opened.1.isSome opened.2).reports
  have hv : opened.2.diagnostics = [] := by
    refine List.prefix_nil.mp (hm.trans ?_)
    rw [← hs.accepted]
    exact List.prefix_refl _
  obtain ⟨hne, hb⟩ := resolveSuperclass_of_accepted hv
  rw [hi, beingDeclared_enter hne] at hb
  exact ⟨hne, hb⟩

/-- What a variable that is read is bound to.  It is not in the middle of its
declaration in the innermost scope. -/
theorem read (hs : w.Sound) {name : Name} {b : Binding} (hr : w.resolved.read? = some (name, b)) :
    b = bindingOf name.text w.scopes ∧ beingDeclared name.text w.scopes = false := by
  rcases w.node_of_read hr with ⟨hn, hb⟩ | ⟨word, methods, hn, hb⟩
  · refine ⟨hb, ?_⟩
    have ha := hs.accepted
    obtain ⟨context, names, node, state⟩ := w
    obtain rfl : node = .expr (.variable ⟨name, ()⟩) := hn
    exact not_beingDeclared_of_readVariable ha
  · obtain ⟨hne, hd⟩ := hs.superclass hn
    rw [bindingOf_enter hne] at hb
    exact ⟨hb, hd⟩

/-- `this` is only accepted inside of a class, where a scope holds it. -/
theorem this (hs : w.Sound) {line : Nat} {b : Binding} (hr : w.resolved = .expr (.this line b)) :
    ∃ d, b = .local d ∧ Nearest "this" w.scopes d := by
  obtain ⟨e, hn, hr⟩ := w.expr_of_resolved hr
  obtain ⟨context, names, node, state⟩ := w
  obtain rfl : node = .expr e := hn
  cases e with
  | this line' u =>
    have ha : (readThis context line' state).2.diagnostics = [] := hs.accepted
    obtain ⟨hc, hb⟩ := readThis_of_accepted ha
    have hscopes := hs.framed.classScopes
    obtain ⟨d, hd⟩ : ∃ d, Nearest "this" state.scopes d := by
      cases hclass : context.enclosingClass with
      | none => exact absurd hclass hc
      | plain =>
        rw [hclass] at hscopes
        exact hscopes
      | derived =>
        rw [hclass] at hscopes
        exact hscopes.imp fun _ hd => hd.1
    have hb' : (readThis context line' state).1 = b := (Expr.this.inj hr).2
    exact ⟨d, by rw [← hb', hb, hd.bindingOf], hd⟩
  | _ => cases hr

/-- `super` is only accepted inside of a class with a superclass, where the scope
around that of `this` holds it. -/
theorem super (hs : w.Sound) {line : Nat} {method : Name} {b : Binding}
    (hr : w.resolved = .expr (.super line method b)) :
    ∃ d : Nat, b = .local (d + 1) ∧ Nearest "this" w.scopes d ∧
      Nearest "super" w.scopes (d + 1) := by
  obtain ⟨e, hn, hr⟩ := w.expr_of_resolved hr
  obtain ⟨context, names, node, state⟩ := w
  obtain rfl : node = .expr e := hn
  cases e with
  | super line' method' u =>
    have ha : (readSuper context line' state).2.diagnostics = [] := hs.accepted
    obtain ⟨hc, hb⟩ := readSuper_of_accepted ha
    have hscopes := hs.framed.classScopes
    rw [hc] at hscopes
    obtain ⟨d, ht, hd⟩ := hscopes
    have hb' : (readSuper context line' state).1 = b := (Expr.super.inj hr).2.2
    exact ⟨d, by rw [← hb', hb, hd.bindingOf], ht, hd⟩
  | _ => cases hr

/-- What a statement declares is an ordinary name of the innermost scope. -/
theorem declared (hs : w.Sound) {s : Stmt Binding} (hr : w.resolved = .stmt s) {name : Name}
    (hd : s.declared = some name) : name.Ordinary ∧ name.text ∈ w.node.declared := by
  obtain ⟨s', hn, rfl⟩ := w.stmt_of_resolved hr
  rw [declared_resolveStmt] at hd
  have hmem : name.text ∈ declaredNames [s'] := by simp [declaredNames, hd]
  have hl := hs.legal
  rw [hn] at hl ⊢
  exact ⟨hl.ordinary _ hmem, hmem⟩

theorem assign (hs : w.Sound) {target : Reference Binding} {value : Expr Binding}
    (hr : w.resolved = .expr (.assign target value)) :
    target.binding = bindingOf target.name.text w.scopes ∧ target.name.Ordinary := by
  obtain ⟨e, hn, hr⟩ := w.expr_of_resolved hr
  obtain ⟨context, names, node, state⟩ := w
  obtain rfl : node = .expr e := hn
  cases e with
  | assign target' value' =>
    have hl := hs.legal
    have hv : (resolveExpr context value' state).2.scopes = state.scopes :=
      (resolveExpr_walks context value' hl.2 state).scopes
    cases hr
    refine ⟨(bind_fst ..).trans ?_, hl.1⟩
    rw [hv]
  | _ => cases hr

/-- A reference is bound to the closest scope that holds its name. -/
theorem binding (hs : w.Sound) {x : String} {b : Binding}
    (hr : w.resolved.reference? = some (x, b)) : b = bindingOf x w.scopes := by
  unfold Node.reference? at hr
  split at hr
  · rename_i target value hn
    cases hr
    exact (hs.assign hn).1
  · rename_i line b' hn
    cases hr
    obtain ⟨d, rfl, hd⟩ := hs.this hn
    exact hd.bindingOf.symm
  · rename_i line method b' hn
    cases hr
    obtain ⟨d, rfl, -, hd⟩ := hs.super hn
    exact hd.bindingOf.symm
  · obtain ⟨⟨name, b'⟩, hread, he⟩ := Option.map_eq_some_iff.mp hr
    cases he
    exact (hs.read hread).1

end Site.Sound

/-! ## Functions as resolution leaves them -/

theorem Site.names_of_function? {w : Site} {f : FunctionSite} (hf : w.function? = some f) :
    f.names = w.names := by
  unfold Site.function? at hf
  split at hf <;> cases hf <;> rfl

/-- The function that an expression makes. -/
theorem Site.function?_of_lambda {w : Site} {line : Nat} {parameters : List Name}
    {body : List (Stmt Binding)} (hr : w.resolved = .expr (.lambda line parameters body)) :
    ∃ f, w.function? = some f ∧
      ∀ scope, f.code scope = ⟨none, parameters, body, scope, false⟩ := by
  obtain ⟨e, hn, hr⟩ := w.expr_of_resolved hr
  obtain ⟨context, names, node, state⟩ := w
  obtain rfl : node = .expr e := hn
  cases e with
  | lambda line' parameters' body' =>
    cases hr
    exact ⟨_, rfl, fun _ => rfl⟩
  | _ => cases hr

/-- The function that a statement declares. -/
theorem Site.function?_of_functionDecl {w : Site} {name : Name} {parameters : List Name}
    {body : List (Stmt Binding)}
    (hr : w.resolved = .stmt (.functionDecl (.mk name parameters body))) :
    ∃ f, w.function? = some f ∧
      ∀ scope, f.code scope = ⟨some name.text, parameters, body, scope, false⟩ := by
  obtain ⟨s, hn, hr⟩ := w.stmt_of_resolved hr
  obtain ⟨context, names, node, state⟩ := w
  obtain rfl : node = .stmt s := hn
  cases s with
  | functionDecl f =>
    cases f with
    | mk name' parameters' body' =>
      cases hr
      exact ⟨_, rfl, fun _ => rfl⟩
  | var word initializer => cases initializer <;> cases hr
  | ifStmt condition thenBranch elifs elseBranch => cases elseBranch <;> cases hr
  | returnStmt line value => cases value <;> cases hr
  | _ => cases hr

theorem Site.code_of_mem_classMethods {context : Context} {names : List (List String)}
    {scope : EnvId}
    {x : String} {code : Closure} :
    ∀ {methods : List (Function Unit)} {s : State} {slots : Slots Closure},
      (classMethods scope (resolveMethods context methods s).1 slots).get? x = some code →
        slots.get? x = some code ∨ ∃ f ∈ methodSites context names methods s, code = f.code scope
  | [], _, _, hx => .inl hx
  | .mk name parameters body :: rest, s, slots, hx => by
    let f : FunctionSite := ⟨some name.text, name.text = initializerName,
      { context with function := methodContext name }, names, parameters, body, s⟩
    have hrest : (classMethods scope (resolveMethods context rest
        (resolveFunction context (methodContext name) (.mk name parameters body) s).2).1
          (slots.set name.text (f.code scope))).get? x = some code := hx
    rcases code_of_mem_classMethods hrest with hx | ⟨f, hf, he⟩
    · by_cases hne : name.text = x
      · subst hne
        rw [Slots.get?_set_self] at hx
        exact .inr ⟨_, List.mem_cons_self .., (Option.some.inj hx).symm⟩
      · rw [Slots.get?_set_of_ne _ _ hne] at hx
        exact .inl hx
    · exact .inr ⟨f, List.mem_cons_of_mem _ hf, he⟩

theorem Site.fst_inClass {α : Type} (derived : Bool) (step : Walk α) (s : State) :
    (inClass derived step s).1 = (step (classState derived s)).1 := by
  cases derived <;> rfl

/-- The block that a statement runs. -/
theorem Site.block?_of_block {w : Site} {body : List (Stmt Binding)}
    (hr : w.resolved = .stmt (.block body)) :
    ∃ w' declared, w.block? = some w' ∧ w'.names = declared :: w.names := by
  obtain ⟨s, hn, hr⟩ := w.stmt_of_resolved hr
  obtain ⟨context, names, node, state⟩ := w
  obtain rfl : node = .stmt s := hn
  cases s with
  | block body' => exact ⟨_, _, rfl, rfl⟩
  | var word initializer => cases initializer <;> cases hr
  | ifStmt condition thenBranch elifs elseBranch => cases elseBranch <;> cases hr
  | returnStmt line value => cases value <;> cases hr
  | _ => cases hr

/-- The methods of a class are those of its site. -/
theorem Site.method_of_classDecl {w : Site} {name : Name} {parent : Option (Reference Binding)}
    {methods : List (Function Binding)} (hr : w.resolved = .stmt (.classDecl name parent methods)) :
    ∃ parent' methods', w.node = .stmt (.classDecl name parent' methods') ∧
      parent'.isSome = parent.isSome ∧
      ∀ scope x code, (classMethods scope methods ∅).get? x = some code →
        ∃ f ∈ w.methods, code = f.code scope := by
  obtain ⟨s, hn, hr⟩ := w.stmt_of_resolved hr
  obtain ⟨context, names, node, state⟩ := w
  obtain rfl : node = .stmt s := hn
  cases s with
  | classDecl name' parent' methods' =>
    cases hr
    have hsome := resolveSuperclass_isSome name parent' (introduce name state).2
    refine ⟨parent', methods', rfl, hsome.symm, fun scope x code hx => ?_⟩
    have hx' : (classMethods scope (inClass
        (resolveSuperclass name parent' (introduce name state).2).1.isSome
        (resolveMethods { context with
          enclosingClass := if (resolveSuperclass name parent'
            (introduce name state).2).1.isSome then .derived else .plain } methods')
        (resolveSuperclass name parent' (introduce name state).2).2).1 ∅).get? x = some code := hx
    rw [Site.fst_inClass, hsome] at hx'
    exact (Site.code_of_mem_classMethods hx').resolve_left nofun
  | var word initializer => cases initializer <;> cases hr
  | ifStmt condition thenBranch elifs elseBranch => cases elseBranch <;> cases hr
  | returnStmt line value => cases value <;> cases hr
  | _ => cases hr
theorem Site.names_of_mem_methodSites {context : Context} {names : List (List String)}
    {f : FunctionSite} : ∀ {methods : List (Function Unit)} {s : State},
      f ∈ methodSites context names methods s → f.names = names
  | [], _, hf => nomatch hf
  | .mk _ _ _ :: _, _, hf => by
    rcases List.mem_cons.mp hf with rfl | hf
    · rfl
    · exact names_of_mem_methodSites hf

/-- The names that the scopes around a method declare. -/
theorem Site.names_of_mem_methods {w : Site} {f : FunctionSite} {name : Name}
    {parent : Option (Reference Unit)} {methods : List (Function Unit)}
    (hn : w.node = .stmt (.classDecl name parent methods)) (hf : f ∈ w.methods) :
    f.names = classNames parent.isSome w.names := by
  obtain ⟨context, names, node, state⟩ := w
  obtain rfl : node = .stmt (.classDecl name parent methods) := hn
  exact Site.names_of_mem_methodSites hf

end ClassScript
