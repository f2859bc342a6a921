import ClassScript.Proofs.Scope.Nesting
import ClassScript.Proofs.Scope.Rules

/-!
# Reports are violations

`Tells P spots step` says that a step of resolution adds exactly the reports of what is
broken among some spots, as long as `P` holds of the open scopes before it.  A walk over an
expression needs to know only which name is being declared around it (`Reads`), and a walk
over a statement which names the innermost scope has (`Standing`).  What encloses a statement
fits the context in which it is resolved (`Resolution.Context.FitsIn`).

A step that opens scopes and closes them again needs no more than that of the scopes
around it, so the state of the walk is compared with the enclosures only here.
-/

namespace ClassScript

open Resolution

/-! ## Enclosures and the state of the walk -/

/-- Whether a function is the initializer of a class. -/
def Resolution.FunctionContext.kind : FunctionContext → Option Bool
  | .topLevel => none
  | .function => some false
  | .method => some false
  | .initializer => some true

/-- Whether a class has a superclass. -/
def Resolution.ClassContext.kind : ClassContext → Option Bool
  | .none => Option.none
  | .plain => some false
  | .derived => some true

/-- The kinds of the closest function and of the closest class are those of the context. -/
def Resolution.Context.FitsIn (outer : List Enclosure) (context : Context) : Prop :=
  closestFunction outer = context.function.kind ∧
    closestClass outer = context.enclosingClass.kind

/-- A spot of a kind that a rule is about. -/
def Spot.Governed : Spot → Prop
  | .expr (.variable _) => True
  | .expr (.this _ _) => True
  | .expr (.super _ _ _) => True
  | .stmt (.returnStmt _ _) => True
  | .declared _ => True
  | .superclass _ _ => True
  | _ => False

theorem Breaks.governed {outer : List Enclosure} {spot : Spot} {word : Name}
    {error : ScopeError} (h : Breaks outer spot word error) : spot.Governed := by
  cases h <;> trivial

/-- The name that is being declared in the innermost scope is that of the initializer around
an expression. -/
def Reads (outer : List Enclosure) (scopes : List StaticScope) : Prop :=
  ∀ x, beingDeclared x scopes = true ↔
    ∃ names outer', outer = .initializer x :: .scope names :: outer'

/-- The innermost scope has the names that were declared around a statement before it.  There
is none around an outermost statement. -/
inductive Standing : List Enclosure → List StaticScope → Prop where
  | outermost : Standing [] []
  | scope {names : List String} {outer : List Enclosure} {scope : StaticScope}
      {scopes : List StaticScope} (contains_iff : ∀ x, scope.contains x = true ↔ x ∈ names)
      (ready : ∀ x, scope.get? x ≠ some false) : Standing (.scope names :: outer) (scope :: scopes)

namespace Standing

variable {outer : List Enclosure} {scopes : List StaticScope}

theorem opened : Standing (.scope [] :: outer) (∅ :: scopes) :=
  .scope (fun _ => ⟨nofun, nofun⟩) nofun

theorem reads (h : Standing outer scopes) : Reads outer scopes := by
  intro x
  cases h with
  | outermost => exact ⟨nofun, nofun⟩
  | scope _ ready =>
    refine ⟨fun hx => absurd (of_decide_eq_true hx) (ready x), ?_⟩
    rintro ⟨_, _, he⟩
    cases he

/-- In the middle of a declaration. -/
theorem reads_initializer (h : Standing outer scopes) (x : String) :
    Reads (.initializer x :: outer) (enter x false scopes) := by
  intro y
  cases h with
  | outermost =>
    refine ⟨nofun, ?_⟩
    rintro ⟨_, _, he⟩
    cases he
  | @scope names outer scope scopes _ ready =>
    by_cases hxy : x = y
    · subst hxy
      exact iff_of_true (decide_eq_true (Slots.get?_set_self ..)) ⟨_, _, rfl⟩
    · refine iff_of_false (fun hy => ready y ?_) ?_
      · rw [← Slots.get?_set_of_ne scope false hxy]
        exact of_decide_eq_true hy
      · rintro ⟨_, _, he⟩
        cases he
        exact hxy rfl

theorem enter (h : Standing outer scopes) {names : List String} {outer' : List Enclosure}
    (ho : outer = .scope names :: outer') (x : String) :
    Standing (.scope (names ++ [x]) :: outer') (enter x true scopes) := by
  cases h with
  | outermost => cases ho
  | @scope _ _ scope _ contains_iff ready =>
    cases ho
    refine .scope (fun y => ?_) fun y => ?_
    · rw [Slots.contains_set, contains_iff, List.mem_append, List.mem_singleton, or_comm,
        @eq_comm _ x]
    · by_cases hxy : x = y
      · subst hxy
        rw [Slots.get?_set_self]
        exact nofun
      · rw [Slots.get?_set_of_ne _ _ hxy]
        exact ready y

theorem reads_enter (h : Standing outer scopes) (x : String) :
    Reads outer (Resolution.enter x true scopes) := by
  cases h with
  | outermost => exact Standing.outermost.reads
  | @scope names outer' scope scopes contains_iff ready =>
    intro y
    have hl : Standing (.scope names :: outer') (scope :: scopes) := .scope contains_iff ready
    refine ((hl.enter rfl x).reads y).trans ?_
    constructor <;> rintro ⟨_, _, he⟩ <;> cases he

theorem enterAll {names : List String} {outer' : List Enclosure} (h : Standing outer scopes)
    (ho : outer = .scope names :: outer') (more : List String) :
    Standing (.scope (names ++ more) :: outer') (enterAll more scopes) := by
  subst ho
  induction more generalizing names scopes with
  | nil => rwa [List.append_nil]
  | cons x rest ih =>
    rw [List.append_cons]
    exact ih (h.enter rfl x)

/-- A declaration breaks a rule if the innermost scope has its name. -/
theorem breaks_declared_iff (h : Standing outer scopes) (name : Name) :
    declaredInnermost name.text scopes = true ↔
      Breaks outer (.declared name) name .alreadyDeclared := by
  cases h with
  | outermost =>
    refine ⟨nofun, fun hb => ?_⟩
    cases hb
  | scope contains_iff _ =>
    refine Iff.trans (contains_iff name.text) ⟨.alreadyDeclared, fun hb => ?_⟩
    cases hb with
    | alreadyDeclared hx => exact hx

end Standing

/-- A variable breaks a rule if its name is being declared. -/
theorem Reads.breaks_variable_iff {outer : List Enclosure} {scopes : List StaticScope}
    (h : Reads outer scopes) (target : Reference Unit) :
    beingDeclared target.name.text scopes = true ↔
      Breaks outer (.expr (.variable target)) target.name .readInOwnInitializer := by
  refine (h target.name.text).trans ⟨?_, fun hb => ?_⟩
  · rintro ⟨names, outer, rfl⟩
    exact .readInOwnInitializer rfl
  · cases hb with
    | readInOwnInitializer hx =>
      subst hx
      exact ⟨_, _, rfl⟩

/-! ## Steps that tell of spots -/

namespace Resolution

/-- The step adds exactly the reports of what is broken among the spots. -/
def Tells (P : List StaticScope → Prop) (spots : Spots) {α : Type} (step : Walk α) : Prop :=
  ∀ s, P s.scopes →
    ∃ ds, (step s).2.diagnostics = s.diagnostics ++ ds ∧ AccountedFor spots ds

namespace Tells

variable {α β : Type} {P Q : List StaticScope → Prop} {xs ys : Spots} {step : Walk α}
  {outer : List Enclosure} {spot : Spot}

theorem mono (h : Tells Q xs step) (hPQ : ∀ scopes, P scopes → Q scopes) : Tells P xs step :=
  fun s hs => h s (hPQ _ hs)

theorem pure (a : α) : Tells P [] (pure a : Walk α) :=
  fun _ _ => ⟨[], (List.append_nil _).symm, .nil⟩

/-- One step after another, which may look at what is known of the value before it. -/
theorem bindOf {R : α → Prop} {next : α → Walk β} (h : Tells P xs step)
    (hR : ∀ s, R (step s).1) (h' : ∀ a, R a → Tells Q ys (next a))
    (hscopes : ∀ s, P s.scopes → Q (step s).2.scopes) :
    Tells P (xs ++ ys) (step >>= next) := by
  intro s hs
  obtain ⟨ds, hds, ha⟩ := h s hs
  obtain ⟨es, hes, ha'⟩ := h' (step s).1 (hR s) (step s).2 (hscopes s hs)
  refine ⟨ds ++ es, ?_, ha.append ha'⟩
  rw [← List.append_assoc, ← hds]
  exact hes

theorem bind {next : α → Walk β} (h : Tells P xs step) (h' : ∀ a, Tells Q ys (next a))
    (hscopes : ∀ s, P s.scopes → Q (step s).2.scopes) : Tells P (xs ++ ys) (step >>= next) :=
  h.bindOf (R := fun _ => True) (fun _ => trivial) (fun a _ => h' a) hscopes

/-- After a step that leaves the scopes as they are. -/
theorem before {next : α → Walk β} (h : Tells P xs step) (hw : Walks [] step)
    (h' : ∀ a, Tells P ys (next a)) : Tells P (xs ++ ys) (step >>= next) :=
  h.bind h' fun _ hs => by
    rw [(hw _).scopes]
    exact hs

/-- Before a step that reports nothing. -/
theorem quietly {next : α → Walk β} (h : Tells P xs step)
    (hn : ∀ a s, (next a s).2.diagnostics = s.diagnostics) : Tells P xs (step >>= next) := by
  intro s hs
  obtain ⟨ds, hds, ha⟩ := h s hs
  exact ⟨ds, (hn _ _).trans hds, ha⟩

/-- A last step that only shapes the value. -/
theorem after {f : α → β} (h : Tells P xs step) :
    Tells P xs (step >>= fun a => Pure.pure (f a)) :=
  h.quietly fun _ _ => rfl

theorem inScope {scope : StaticScope} (h : Tells Q xs step)
    (hPQ : ∀ scopes, P scopes → Q (scope :: scopes)) : Tells P xs (inScope scope step) :=
  fun s hs => h { s with scopes := scope :: s.scopes } (hPQ _ hs)

theorem inClass (derived : Bool) (h : Tells (fun _ => True) xs step) :
    Tells P xs (inClass derived step) := by
  unfold Resolution.inClass
  cases derived with
  | false => exact h.inScope fun _ _ => trivial
  | true => exact (h.inScope (P := fun _ => True) fun _ _ => trivial).inScope fun _ _ => trivial

/-- A spot that breaks no rule. -/
theorem kept (hn : ∀ word error, ¬ Breaks outer spot word error)
    (h : Tells P (spot.children outer) step) : Tells P [(outer, spot)] step := by
  intro s hs
  obtain ⟨ds, hds, ha⟩ := h s hs
  exact ⟨ds, hds, ha.single hn⟩

/-- A spot that no rule is about. -/
theorem ungoverned (hn : ¬ spot.Governed) (h : Tells P (spot.children outer) step) :
    Tells P [(outer, spot)] step :=
  h.kept fun _ _ hb => hn hb.governed

/-- A spot that breaks a rule, which is reported first. -/
theorem broken {word : Name} {error : ScopeError} (hb : Breaks outer spot word error)
    (h : Tells P (spot.children outer) step) :
    Tells P [(outer, spot)] (report word error >>= fun _ => step) := by
  intro s hs
  obtain ⟨ds, hds, ha⟩ := h (report word error s).2 hs
  refine ⟨_ :: ds, ?_, ha.broken hb⟩
  rw [List.append_cons]
  exact hds

/-- A spot that is checked for the one rule that it may break. -/
theorem checked {c : List StaticScope → Prop} [∀ scopes, Decidable (c scopes)] {word : Name}
    {error : ScopeError} (hc : ∀ scopes, P scopes → (c scopes ↔ Breaks outer spot word error))
    (hu : ∀ word' error', Breaks outer spot word' error' → Breaks outer spot word error)
    (h : Tells P (spot.children outer) step) :
    Tells P [(outer, spot)]
      (get >>= fun s => if c s.scopes then report word error >>= fun _ => step else step) := by
  intro s hs
  show ∃ ds, ((if c s.scopes then report word error >>= fun _ => step else step : Walk α)
    s).2.diagnostics = _ ∧ _
  split
  · exact (h.broken ((hc _ hs).mp ‹_›)) s hs
  · exact (h.kept fun word error hb => ‹¬ c s.scopes› ((hc _ hs).mpr (hu _ _ hb))) s hs

/-- A step that reports nothing tells of no spot. -/
theorem silent (h : ∀ s, (step s).2.diagnostics = s.diagnostics) : Tells P [] step :=
  fun s _ => ⟨[], by rw [h, List.append_nil], .nil⟩

/-! ### Names -/

theorem declare (name : Name) :
    Tells (Standing outer) [(outer, .declared name)] (declare name) := by
  refine checked (c := fun scopes => declaredInnermost name.text scopes = true)
    (fun scopes h => h.breaks_declared_iff name) (fun _ _ hb => ?_) (silent fun _ => rfl)
  cases hb with
  | alreadyDeclared hx => exact .alreadyDeclared hx

theorem introduce (name : Name) :
    Tells (Standing outer) [(outer, .declared name)] (introduce name) :=
  (declare name).quietly fun _ _ => rfl

theorem bindName (kind : ReferenceKind) (name : Name) : Tells P [] (Resolution.bind kind name) := by
  refine silent fun s => ?_
  unfold Resolution.bind
  dsimp only [Bind.bind, StateT.bind, get, getThe, MonadStateOf.get, StateT.get, Pure.pure]
  cases bindingOf name.text s.scopes <;> rfl

theorem readVariable (target : Reference Unit) :
    Tells (Reads outer) [(outer, .expr (.variable target))] (readVariable target.name) := by
  refine checked (c := fun scopes => beingDeclared target.name.text scopes = true)
    (fun scopes h => h.breaks_variable_iff target) (fun _ _ hb => ?_) (bindName _ _).after
  cases hb with
  | readInOwnInitializer hx => exact .readInOwnInitializer hx

theorem readThis {context : Context} (hc : context.FitsIn outer) (line : Nat) (binding : Unit) :
    Tells P [(outer, .expr (.this line binding))] (readThis context line) := by
  obtain ⟨_, enclosingClass⟩ := context
  have hclass : closestClass outer = enclosingClass.kind := hc.2
  cases enclosingClass with
  | none => exact broken (.thisOutsideClass hclass) (pure _)
  | _ =>
    refine kept (fun _ _ hb => ?_) (bindName .this ⟨"this", line⟩)
    cases hb with
    | thisOutsideClass h =>
      rw [h] at hclass
      cases hclass

theorem readSuper {context : Context} (hc : context.FitsIn outer) (line : Nat) (method : Name)
    (binding : Unit) :
    Tells P [(outer, .expr (.super line method binding))] (readSuper context line) := by
  obtain ⟨_, enclosingClass⟩ := context
  have hclass : closestClass outer = enclosingClass.kind := hc.2
  have hbind : Tells P [] (Resolution.bind .super ⟨"super", line⟩) := bindName _ _
  cases enclosingClass with
  | none => exact broken (.superOutsideClass hclass) hbind
  | plain => exact broken (.superWithoutSuperclass hclass) hbind
  | derived =>
    refine kept (fun _ _ hb => ?_) hbind
    cases hb with
    | superOutsideClass h | superWithoutSuperclass h =>
      rw [h] at hclass
      cases hclass

theorem resolveSuperclass (name : Name) : ∀ superclass : Option (Reference Unit),
    Tells (Reads outer)
      (match superclass with
        | none => []
        | some parent => [(outer, .superclass name parent.name)])
      (resolveSuperclass name superclass)
  | none => pure _
  | some parent => by
    show Tells (Reads outer) [(outer, .superclass name parent.name)]
      (if parent.name.text = name.text then
        report parent.name .inheritsFromItself >>= fun _ =>
          Resolution.readVariable parent.name >>= fun r => Pure.pure (some r)
      else Resolution.readVariable parent.name >>= fun r => Pure.pure (some r))
    have hread : Tells (Reads outer) (Spot.children outer (.superclass name parent.name))
        (Resolution.readVariable parent.name >>= fun r => Pure.pure (some r)) :=
      (readVariable ⟨parent.name, ()⟩).after
    split
    · exact hread.broken (.inheritsFromItself ‹_›)
    · refine hread.kept fun _ _ hb => ?_
      cases hb with
      | inheritsFromItself h => exact absurd h ‹_›

/-- A `return`, which is checked before its value. -/
theorem returnStmt {context : Context} (hc : context.FitsIn outer) (line : Nat)
    (value : Option (Expr Unit)) (h : Tells P (Stmt.spots outer (.returnStmt line value)) step) :
    Tells P [(outer, .stmt (.returnStmt line value))]
      (checkReturn context line value.isSome >>= fun _ => step) := by
  obtain ⟨kind, _⟩ := context
  have hfunction : closestFunction outer = kind.kind := hc.1
  cases kind with
  | topLevel =>
    show Tells P _ (report _ .returnAtTopLevel >>= fun _ =>
      (if value.isSome = true ∧ FunctionContext.topLevel = .initializer then
        report ⟨"return", line⟩ .returnValueFromInitializer else Pure.pure ()) >>= fun _ => step)
    rw [if_neg fun h => nomatch h.2]
    exact h.broken (.returnAtTopLevel hfunction)
  | initializer =>
    cases value with
    | some value => exact h.broken (.returnValueFromInitializer hfunction)
    | none =>
      refine h.kept fun _ _ hb => ?_
      cases hb with
      | returnAtTopLevel hf => exact nomatch hf.symm.trans hfunction
  | _ =>
    show Tells P _ ((if value.isSome = true ∧ _ = FunctionContext.initializer then
        report ⟨"return", line⟩ .returnValueFromInitializer else Pure.pure ()) >>= fun _ => step)
    rw [if_neg fun h => nomatch h.2]
    refine h.kept fun _ _ hb => ?_
    cases hb with
    | returnAtTopLevel hf | returnValueFromInitializer hf => cases hf.symm.trans hfunction

/-! ### Functions -/

theorem introduceAll : ∀ (names : List String) (parameters : List Name),
    Tells (Standing (.scope names :: outer)) (parameterSpots outer names parameters)
      (introduceAll parameters)
  | _, [] => pure _
  | names, p :: rest =>
    (introduce p).bind (fun _ => introduceAll (names ++ [p.text]) rest) fun s hs => by
      rw [(Walks.introduce p s).scopes]
      exact hs.enter rfl p.text

/-- The parameters and the body of a function. -/
theorem function {isInitializer : Bool} {parameters : List Name} {body : List (Stmt Unit)}
    (h : Tells (Standing (.scope (parameters.map Name.text) :: .function isInitializer :: outer))
      (bodySpots (.function isInitializer :: outer) (parameters.map Name.text) body) step) :
    Tells P (functionSpots outer isInitializer parameters body)
      (Resolution.inScope ∅ (Resolution.introduceAll parameters >>= fun _ => step)) := by
  refine inScope (Q := Standing (.scope [] :: .function isInitializer :: outer))
    ((introduceAll [] parameters).bind (fun _ => h) fun s hs => ?_) fun _ _ => .opened
  rw [(Walks.introduceAll parameters s).scopes]
  exact hs.enterAll rfl _

end Tells

/-! ## The walk over a tree -/

theorem Context.FitsIn.function {outer : List Enclosure} {context : Context}
    (hc : context.FitsIn outer) {kind : FunctionContext} {isInitializer : Bool}
    (hk : some isInitializer = kind.kind) :
    Context.FitsIn (.function isInitializer :: outer) { context with function := kind } :=
  ⟨hk, hc.2⟩

theorem Context.FitsIn.classBody {outer : List Enclosure} {context : Context}
    (hc : context.FitsIn outer) (derived : Bool) :
    Context.FitsIn (.classBody derived :: outer)
      { context with enclosingClass := if derived then .derived else .plain } :=
  ⟨hc.1, by cases derived <;> rfl⟩

theorem kind_methodContext (name : Name) :
    (methodContext name).kind = some (decide (name.text = initializerName)) := by
  unfold methodContext
  split
  · exact congrArg some (decide_eq_true ‹_›).symm
  · exact congrArg some (decide_eq_false ‹_›).symm

mutual

theorem resolveExpr_tells {outer : List Enclosure} {context : Context}
    (hc : context.FitsIn outer) : ∀ e : Expr Unit, e.Legal →
      Tells (Reads outer) [(outer, .expr e)] (resolveExpr context e)
  | .literal _, _ => .ungoverned id (.pure _)
  | .grouping inner, h =>
      .ungoverned id (resolveExpr_tells hc inner h).after
  | .unary _ _ operand, h =>
      .ungoverned id (resolveExpr_tells hc operand h).after
  | .binary left _ _ right, h =>
      .ungoverned id
        ((resolveExpr_tells hc left h.1).before (resolveExpr_walks context left h.1) fun _ =>
          (resolveExpr_tells hc right h.2).after)
  | .logical left _ _ right, h =>
      .ungoverned id
        ((resolveExpr_tells hc left h.1).before (resolveExpr_walks context left h.1) fun _ =>
          (resolveExpr_tells hc right h.2).after)
  | .variable target, _ => (Tells.readVariable target).after
  | .assign _ value, h =>
      .ungoverned id ((resolveExpr_tells hc value h.2).before
        (resolveExpr_walks context value h.2) fun _ => (Tells.bindName _ _).after.after)
  | .call callee _ arguments, h =>
      .ungoverned id
        ((resolveExpr_tells hc callee h.1).before (resolveExpr_walks context callee h.1) fun _ =>
          (resolveExprs_tells hc arguments h.2).after)
  | .get object _, h => .ungoverned id (resolveExpr_tells hc object h).after
  | .set object _ value, h =>
      .ungoverned id
        ((resolveExpr_tells hc value h.2).before (resolveExpr_walks context value h.2) fun _ =>
          (resolveExpr_tells hc object h.1).after)
  | .this line _, _ => (Tells.readThis hc line _).after
  | .super line method _, _ => (Tells.readSuper hc line method _).after
  | .lambda _ _ body, h =>
      .ungoverned id
        (Tells.function (resolveStmts_tells (hc.function rfl) _ body h.2)).after

theorem resolveExprs_tells {outer : List Enclosure} {context : Context}
    (hc : context.FitsIn outer) : ∀ es : List (Expr Unit), legalExprs es →
      Tells (Reads outer) (es.map fun e => (outer, .expr e)) (resolveExprs context es)
  | [], _ => .pure _
  | e :: rest, h =>
      (resolveExpr_tells hc e h.1).before (resolveExpr_walks context e h.1) fun _ =>
        (resolveExprs_tells hc rest h.2).after

theorem resolveStmt_tells {outer : List Enclosure} {context : Context}
    (hc : context.FitsIn outer) : ∀ s : Stmt Unit, s.Legal →
      Tells (Standing outer) [(outer, .stmt s)] (resolveStmt context s)
  | .expression value, h => .ungoverned id
      ((resolveExpr_tells hc value h).mono fun _ => Standing.reads).after
  | .print value, h => .ungoverned id
      ((resolveExpr_tells hc value h).mono fun _ => Standing.reads).after
  | .var name none, _ => .ungoverned id (Tells.introduce name).after
  | .var name (some value), h => .ungoverned id
      ((Tells.declare name).bind
        (fun _ =>
          (@resolveExpr_tells (.initializer name.text :: outer) context hc value h.2).quietly
            fun _ _ => rfl) fun s hs => by
          rw [Walks.declare_scopes]
          exact hs.reads_initializer name.text)
  | .block body, h => .ungoverned id
      ((resolveStmts_tells hc [] body h).inScope fun _ _ => .opened).after
  | .ifStmt condition thenBranch elifs none, h => .ungoverned id
      (((resolveExpr_tells hc condition h.1).mono fun _ => Standing.reads).before
        (resolveExpr_walks context condition h.1) fun _ =>
        (resolveStmt_tells hc thenBranch h.2.1.1).before
          ((resolveStmt_walks context thenBranch h.2.1.1).branch h.2.1.2) fun _ =>
          (resolveElifs_tells hc elifs h.2.2.1).before
            (resolveElifs_walks context elifs h.2.2.1) fun _ => .pure _)
  | .ifStmt condition thenBranch elifs (some s), h => .ungoverned id
      (((resolveExpr_tells hc condition h.1).mono fun _ => Standing.reads).before
        (resolveExpr_walks context condition h.1) fun _ =>
        (resolveStmt_tells hc thenBranch h.2.1.1).before
          ((resolveStmt_walks context thenBranch h.2.1.1).branch h.2.1.2) fun _ =>
          (resolveElifs_tells hc elifs h.2.2.1).before
            (resolveElifs_walks context elifs h.2.2.1) fun _ =>
              (resolveStmt_tells hc s h.2.2.2.1).after)
  | .whileStmt condition body, h => .ungoverned id
      (((resolveExpr_tells hc condition h.1).mono fun _ => Standing.reads).before
        (resolveExpr_walks context condition h.1) fun _ =>
          (resolveStmt_tells hc body h.2.1).after)
  | .functionDecl f, h => .ungoverned id
      ((Tells.introduce f.name).bind (Q := fun _ => True)
        (fun _ => (resolveFunction_tells hc rfl f h).after) fun _ _ => trivial)
  | .returnStmt line none, _ => Tells.returnStmt hc line none (.pure _)
  | .returnStmt line (some value), h => Tells.returnStmt hc line (some value)
      ((resolveExpr_tells hc value h).mono fun _ => Standing.reads).after
  | .breakStmt _, _ => .ungoverned id (.pure _)
  | .classDecl name superclass methods, h => .ungoverned id
      ((Tells.introduce name).bind (fun _ => (Tells.resolveSuperclass name superclass).bindOf
        (R := fun parent => parent.isSome = superclass.isSome) (Q := fun _ => True)
        (resolveSuperclass_isSome name superclass)
        (fun parent hparent => by
          rw [hparent]
          exact
            ((resolveMethods_tells (hc.classBody superclass.isSome) methods h.2).inClass _).after)
        fun _ _ => trivial) fun s hs => by
          rw [(Walks.introduce name s).scopes]
          exact hs.reads_enter name.text)

theorem resolveStmts_tells {outer : List Enclosure} {context : Context}
    (hc : context.FitsIn outer) : ∀ (names : List String) (body : List (Stmt Unit)),
      legalStmts body →
      Tells (Standing (.scope names :: outer)) (bodySpots outer names body)
        (resolveStmts context body)
  | _, [], _ => .pure _
  | names, s :: rest, h =>
      (@resolveStmt_tells (.scope names :: outer) context hc s h.1).bind
        (fun _ => (resolveStmts_tells hc (names ++ declaredNames [s]) rest h.2).after)
        fun state hs => by
          rw [(resolveStmt_walks context s h.1 state).scopes]
          exact hs.enterAll rfl _

theorem resolveElifs_tells {outer : List Enclosure} {context : Context}
    (hc : context.FitsIn outer) : ∀ branches : List (Elif Unit), legalElifs branches →
      Tells (Standing outer) (elifSpots outer branches) (resolveElifs context branches)
  | [], _ => .pure _
  | .mk condition body :: rest, h =>
      ((resolveExpr_tells hc condition h.1.1).mono fun _ => Standing.reads).before
        (resolveExpr_walks context condition h.1.1) fun _ =>
        (resolveStmt_tells hc body h.1.2.1).before
          ((resolveStmt_walks context body h.1.2.1).branch h.1.2.2) fun _ =>
            (resolveElifs_tells hc rest h.2).after

theorem resolveFunction_tells {P : List StaticScope → Prop} {outer : List Enclosure}
    {context : Context} (hc : context.FitsIn outer) {kind : FunctionContext}
    {isInitializer : Bool} (hk : some isInitializer = kind.kind) : ∀ f : Function Unit, f.Legal →
      Tells P (functionSpots outer isInitializer f.parameters f.body)
        (resolveFunction context kind f)
  | .mk _ _ body, h =>
      (Tells.function (resolveStmts_tells (hc.function hk) _ body h.2.2)).after

theorem resolveMethods_tells {outer : List Enclosure} {context : Context}
    (hc : context.FitsIn outer) : ∀ methods : List (Function Unit), legalFunctions methods →
      Tells (fun _ => True) (methods.map fun f => (outer, .method f))
        (resolveMethods context methods)
  | [], _ => .pure _
  | f :: rest, h =>
      have hf : Tells (fun _ => True) [(outer, .method f)]
          (resolveFunction context (methodContext f.name) f) :=
        .ungoverned id (resolveFunction_tells hc (kind_methodContext f.name).symm f h.1)
      hf.before (resolveFunction_walks context _ f h.1) fun _ =>
        (resolveMethods_tells hc rest h.2).after

end

/-- The outermost statements of a program are in no scope of the stack. -/
theorem resolveStmts_tells_outermost {context : Context} (hc : context.FitsIn []) :
    ∀ p : Program Unit, legalStmts p →
      Tells (Standing []) (topSpots p) (resolveStmts context p)
  | [], _ => .pure _
  | s :: rest, h =>
      (resolveStmt_tells hc s h.1).bind
        (fun _ => (resolveStmts_tells_outermost hc rest h.2).after) fun state hs => by
          rw [(resolveStmt_walks context s h.1 state).scopes]
          generalize state.scopes = scopes at hs ⊢
          cases hs
          rw [List.length_eq_zero_iff.mp (length_enterAll (declaredNames [s]) [])]
          exact .outermost

/-- Resolution reports exactly the violations of a legal program. -/
theorem ofProgram_accountedFor {p : Program Unit} (hp : legalStmts p) :
    AccountedFor (topSpots p) (ofProgram p).diagnostics := by
  have hc : Context.FitsIn [] ⟨.topLevel, .none⟩ := ⟨rfl, rfl⟩
  obtain ⟨ds, hds, ha⟩ := resolveStmts_tells_outermost hc p hp ⟨[], [], #[]⟩ .outermost
  rwa [show (ofProgram p).diagnostics = ds from hds]

end Resolution

end ClassScript
