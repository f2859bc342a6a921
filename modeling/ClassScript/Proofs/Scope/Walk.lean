import ClassScript.Proofs.Syntax.Legal
import ClassScript.Scope.Resolution

/-!
# What resolution does to its scopes

The scopes that an expression opens are closed again when its walk ends, and a
statement leaves nothing behind but the name that it declares, ready for use in
the innermost scope.  Reports are only ever added.  `Enters names s s'` says this
of the states before and after a step of the walk.
-/

namespace ClassScript

/-- The last value that is set counts. -/
theorem Slots.set_set {α : Type} (s : Slots α) (name : String) (a b : α) :
    (s.set name a).set name b = s.set name b := by
  suffices h : ∀ entries : List (String × α),
      replace name b (replace name a entries) = replace name b entries by
    simp [set, h]
  intro entries
  induction entries with
  | nil => simp [replace]
  | cons e rest ih =>
    obtain ⟨key, old⟩ := e
    by_cases hk : key = name
    · simp [replace, hk]
    · simp [replace, hk, ih]

namespace Resolution

/-! ## Entering names -/

/-- The stack after names are made ready for use in the innermost scope. -/
def enterAll (names : List String) (scopes : List StaticScope) : List StaticScope :=
  names.foldl (fun scopes name => enter name true scopes) scopes

theorem enterAll_append (names more : List String) (scopes : List StaticScope) :
    enterAll (names ++ more) scopes = enterAll more (enterAll names scopes) :=
  List.foldl_append ..

/-- Names are entered in the innermost scope alone. -/
theorem tail_enter (name : String) (ready : Bool) (scopes : List StaticScope) :
    (enter name ready scopes).tail = scopes.tail := by
  cases scopes <;> rfl

theorem length_enter (name : String) (ready : Bool) (scopes : List StaticScope) :
    (enter name ready scopes).length = scopes.length := by
  cases scopes <;> rfl

/-- A name that is entered again is in the last of its states. -/
theorem enter_enter (name : String) (a b : Bool) (scopes : List StaticScope) :
    enter name b (enter name a scopes) = enter name b scopes := by
  cases scopes with
  | nil => rfl
  | cons scope outer => simp [enter, Slots.set_set]

theorem tail_enterAll (names : List String) (scopes : List StaticScope) :
    (enterAll names scopes).tail = scopes.tail := by
  induction names generalizing scopes with
  | nil => rfl
  | cons name rest ih => exact (ih _).trans (tail_enter ..)

/-- Entering names opens no scope. -/
theorem length_enterAll (names : List String) (scopes : List StaticScope) :
    (enterAll names scopes).length = scopes.length := by
  induction names generalizing scopes with
  | nil => rfl
  | cons name rest ih => exact (ih _).trans (length_enter ..)

/-! ## Steps of the walk -/

/-- The second state has the reports of the first one and maybe more, and its
scopes are the same ones with the given names entered. -/
structure Enters (names : List String) (s s' : State) : Prop where
  scopes : s'.scopes = enterAll names s.scopes
  reports : s.diagnostics <+: s'.diagnostics

/-- A step of the walk that enters the given names. -/
def Walks {α : Type} (names : List String) (step : Walk α) : Prop :=
  ∀ s, Enters names s (step s).2

namespace Walks

variable {α β : Type} {names more : List String} {step : Walk α}

theorem pure (a : α) : Walks [] (pure a : Walk α) := fun _ => ⟨rfl, List.prefix_refl _⟩

/-- Two steps enter the names of both, in their order. -/
theorem bind {next : α → Walk β} (h : Walks names step) (h' : ∀ a, Walks more (next a)) :
    Walks (names ++ more) (step >>= next) := by
  intro s
  have hs := h s
  have hs' := h' (step s).1 (step s).2
  refine ⟨?_, hs.reports.trans hs'.reports⟩
  show (next (step s).1 (step s).2).2.scopes = _
  rw [hs'.scopes, hs.scopes, enterAll_append]

/-- A step that does not depend on the value before it. -/
theorem before {next : α → Walk β} (h : Walks [] step) (h' : ∀ a, Walks names (next a)) :
    Walks names (step >>= next) :=
  h.bind h'

/-- A last step that only shapes the value. -/
theorem after {f : α → β} (h : Walks names step) :
    Walks names (step >>= fun a => Pure.pure (f a)) := by
  have hb := h.bind fun a => Walks.pure (f a)
  rwa [List.append_nil] at hb

/-- A step may look at the state. -/
theorem get {next : State → Walk β} (h : ∀ s, Walks names (next s)) : Walks names (get >>= next) :=
  fun s => h s s

/-- A report enters nothing. -/
theorem report (word : Name) (error : ScopeError) : Walks [] (report word error) :=
  fun _ => ⟨rfl, List.prefix_append ..⟩

/-- A step that may report before enters what it enters. -/
theorem check (c : Prop) [Decidable c] (word : Name) (error : ScopeError) (h : Walks names step) :
    Walks names (if c then Resolution.report word error >>= fun _ => step else step) := by
  split
  · exact (report word error).before fun _ => h
  · exact h

/-- A step in a scope of its own leaves nothing behind. -/
theorem inScope (scope : StaticScope) (h : Walks names step) :
    Walks [] (Resolution.inScope scope step) := by
  intro s
  refine ⟨?_, (h { s with scopes := scope :: s.scopes }).reports⟩
  show (step { s with scopes := scope :: s.scopes }).2.scopes.tail = s.scopes
  rw [(h _).scopes, tail_enterAll]
  rfl

/-- So does a step in the scopes of a class. -/
theorem inClass (derived : Bool) (h : Walks names step) :
    Walks [] (Resolution.inClass derived step) := by
  unfold Resolution.inClass
  cases derived with
  | false => exact h.inScope _
  | true => exact (h.inScope _).inScope _

/-! ### Names -/

/-- A declared name is not ready for use. -/
theorem declare_scopes (name : Name) (s : State) :
    (declare name s).2.scopes = enter name.text false s.scopes := by
  show (((if declaredInnermost name.text s.scopes then
      Resolution.report name .alreadyDeclared >>= fun _ => modify _ else modify _) : Walk Unit)
        s).2.scopes = _
  split <;> rfl

/-- A declaration may add a report that the name is taken. -/
theorem declare_reports (name : Name) (s : State) :
    s.diagnostics <+: (declare name s).2.diagnostics := by
  show s.diagnostics <+: (((if declaredInnermost name.text s.scopes then
      Resolution.report name .alreadyDeclared >>= fun _ => modify _ else modify _) : Walk Unit)
        s).2.diagnostics
  split
  · exact List.prefix_append ..
  · exact List.prefix_refl _

/-- A name that is declared before a step and made ready after it. -/
theorem around (name : Name) (f : α → β) (h : Walks [] step) :
    Walks [name.text]
      (declare name >>= fun _ => step >>= fun a => define name >>= fun _ => Pure.pure (f a)) := by
  intro s
  have hs := h (declare name s).2
  refine ⟨?_, (declare_reports name s).trans hs.reports⟩
  show enter name.text true (step (declare name s).2).2.scopes = enter name.text true s.scopes
  rw [hs.scopes, declare_scopes]
  exact enter_enter ..

/-- A name that is declared and defined at once is ready for use. -/
theorem introduce (name : Name) : Walks [name.text] (introduce name) :=
  around name id (pure ())

/-- Parameters are entered in their order. -/
theorem introduceAll : ∀ names : List Name, Walks (names.map Name.text) (introduceAll names)
  | [] => pure ()
  | name :: rest => (introduce name).bind fun _ => introduceAll rest

/-- Binding a name changes no scope. -/
theorem bindName (kind : ReferenceKind) (name : Name) : Walks [] (Resolution.bind kind name) := by
  refine get fun s => ?_
  dsimp only
  split
  · exact (pure ()).before fun _ => pure _
  · exact before (fun _ => ⟨rfl, List.prefix_refl _⟩) fun _ => pure _

/-- A variable that is read enters nothing. -/
theorem readVariable (name : Name) : Walks [] (readVariable name) :=
  get fun _ => check _ _ _ ((bindName _ _).before fun _ => pure _)

theorem writeVariable (name : Name) : Walks [] (writeVariable name) :=
  (bindName _ _).before fun _ => pure _

/-- `this` enters nothing, in a class or outside of one. -/
theorem readThis (context : Context) (line : Nat) : Walks [] (readThis context line) := by
  unfold Resolution.readThis
  dsimp only
  split
  · exact (report _ _).before fun _ => pure _
  · exact bindName _ _

/-- `super` enters nothing, whatever is wrong with it. -/
theorem readSuper (context : Context) (line : Nat) : Walks [] (readSuper context line) := by
  unfold Resolution.readSuper
  dsimp only
  split
  · exact (report _ _).before fun _ => bindName _ _
  · exact (report _ _).before fun _ => bindName _ _
  · exact bindName _ _

/-- A `return` that is not allowed here is reported, and that is all. -/
theorem checkReturn (context : Context) (line : Nat) (hasValue : Bool) :
    Walks [] (checkReturn context line hasValue) := by
  unfold Resolution.checkReturn
  refine check _ _ _ ?_
  split
  · exact report _ _
  · exact pure ()

/-- A superclass is read as a variable. -/
theorem resolveSuperclass (name : Name) : ∀ parent : Option (Reference Unit),
    Walks [] (resolveSuperclass name parent)
  | none => pure none
  | some _ => check _ _ _ ((readVariable _).before fun _ => pure _)

/-- A statement that declares nothing enters nothing. -/
theorem branch {s : Stmt Unit} (h : Walks (declaredNames [s]) step) (hs : s.declared = none) :
    Walks [] step := by
  rwa [declaredNames_of_none hs] at h

end Walks

/-- A class has a superclass after resolution if it had one before. -/
theorem resolveSuperclass_isSome (name : Name) (parent : Option (Reference Unit)) (s : State) :
    (resolveSuperclass name parent s).1.isSome = parent.isSome := by
  cases parent with
  | none => rfl
  | some parent =>
    show ((if parent.name.text = name.text then
        report parent.name .inheritsFromItself >>= fun _ =>
          readVariable parent.name >>= fun r => pure (some r)
      else readVariable parent.name >>= fun r => pure (some r) :
        Walk (Option (Reference Binding))) s).1.isSome = true
    split <;> rfl

/-! ## The walk over a tree -/

mutual

/-- An expression leaves the scopes as they were. -/
theorem resolveExpr_walks (context : Context) :
    ∀ e : Expr Unit, e.Legal → Walks [] (resolveExpr context e)
  | .literal _, _ => .pure _
  | .grouping inner, h => (resolveExpr_walks context inner h).after
  | .unary _ _ operand, h => (resolveExpr_walks context operand h).after
  | .binary left _ _ right, h =>
      (resolveExpr_walks context left h.1).before fun _ =>
        (resolveExpr_walks context right h.2).after
  | .logical left _ _ right, h =>
      (resolveExpr_walks context left h.1).before fun _ =>
        (resolveExpr_walks context right h.2).after
  | .variable _, _ => (Walks.readVariable _).after
  | .assign _ value, h =>
      (resolveExpr_walks context value h.2).before fun _ => (Walks.writeVariable _).after
  | .call callee _ arguments, h =>
      (resolveExpr_walks context callee h.1).before fun _ =>
        (resolveExprs_walks context arguments h.2).after
  | .get object _, h => (resolveExpr_walks context object h).after
  | .set object _ value, h =>
      (resolveExpr_walks context value h.2).before fun _ =>
        (resolveExpr_walks context object h.1).after
  | .this line _, _ => (Walks.readThis context line).after
  | .super line _ _, _ => (Walks.readSuper context line).after
  | .lambda _ parameters body, h =>
      (((Walks.introduceAll parameters).bind fun _ =>
        resolveStmts_walks _ body h.2).inScope ∅).after

theorem resolveExprs_walks (context : Context) :
    ∀ es : List (Expr Unit), legalExprs es → Walks [] (resolveExprs context es)
  | [], _ => .pure _
  | e :: rest, h =>
      (resolveExpr_walks context e h.1).before fun _ => (resolveExprs_walks context rest h.2).after

/-- A statement enters the names that it declares. -/
theorem resolveStmt_walks (context : Context) :
    ∀ s : Stmt Unit, s.Legal → Walks (declaredNames [s]) (resolveStmt context s)
  | .expression value, h => (resolveExpr_walks context value h).after
  | .print value, h => (resolveExpr_walks context value h).after
  | .var name none, _ => (Walks.introduce name).after
  | .var name (some value), h => .around name _ (resolveExpr_walks context value h.2)
  | .block body, h => ((resolveStmts_walks context body h).inScope ∅).after
  | .ifStmt condition thenBranch elifs none, h =>
      (resolveExpr_walks context condition h.1).before fun _ =>
        ((resolveStmt_walks context thenBranch h.2.1.1).branch h.2.1.2).before fun _ =>
          (resolveElifs_walks context elifs h.2.2.1).after
  | .ifStmt condition thenBranch elifs (some s), h =>
      (resolveExpr_walks context condition h.1).before fun _ =>
        ((resolveStmt_walks context thenBranch h.2.1.1).branch h.2.1.2).before fun _ =>
          (resolveElifs_walks context elifs h.2.2.1).before fun _ =>
            ((resolveStmt_walks context s h.2.2.2.1).branch h.2.2.2.2).after
  | .whileStmt condition body, h =>
      (resolveExpr_walks context condition h.1).before fun _ =>
        ((resolveStmt_walks context body h.2.1).branch h.2.2).after
  | .functionDecl f, h =>
      (Walks.introduce f.name).bind fun _ => (resolveFunction_walks context .function f h).after
  | .returnStmt line none, _ => (Walks.checkReturn context line false).after
  | .returnStmt line (some value), h =>
      (Walks.checkReturn context line true).before fun _ =>
        (resolveExpr_walks context value h).after
  | .breakStmt _, _ => .pure _
  | .classDecl name superclass methods, h =>
      (Walks.introduce name).bind fun _ =>
        (Walks.resolveSuperclass name superclass).before fun _ =>
          ((resolveMethods_walks _ methods h.2).inClass _).after

/-- Statements enter the names that they declare, in their order. -/
theorem resolveStmts_walks (context : Context) :
    ∀ body : List (Stmt Unit), legalStmts body →
      Walks (declaredNames body) (resolveStmts context body)
  | [], _ => .pure _
  | s :: rest, h => by
      rw [declaredNames_cons]
      exact (resolveStmt_walks context s h.1).bind fun _ =>
        (resolveStmts_walks context rest h.2).after

theorem resolveElifs_walks (context : Context) :
    ∀ branches : List (Elif Unit), legalElifs branches → Walks [] (resolveElifs context branches)
  | [], _ => .pure _
  | .mk condition body :: rest, h =>
      (resolveExpr_walks context condition h.1.1).before fun _ =>
        ((resolveStmt_walks context body h.1.2.1).branch h.1.2.2).before fun _ =>
          (resolveElifs_walks context rest h.2).after

/-- A function keeps its parameters and variables to itself. -/
theorem resolveFunction_walks (context : Context) (kind : FunctionContext) :
    ∀ f : Function Unit, f.Legal → Walks [] (resolveFunction context kind f)
  | .mk _ parameters body, h =>
      (((Walks.introduceAll parameters).bind fun _ =>
        resolveStmts_walks _ body h.2.2).inScope ∅).after

/-- So do the methods of a class. -/
theorem resolveMethods_walks (context : Context) :
    ∀ methods : List (Function Unit), legalFunctions methods →
      Walks [] (resolveMethods context methods)
  | [], _ => .pure _
  | f :: rest, h =>
      (resolveFunction_walks context _ f h.1).before fun _ =>
        (resolveMethods_walks context rest h.2).after

end

/-- Outermost statements leave no scope open. -/
theorem scopes_resolveStmts (context : Context) {p : List (Stmt Unit)} (hp : legalStmts p)
    {s : State} (hs : s.scopes = []) : (resolveStmts context p s).2.scopes = [] :=
  List.length_eq_zero_iff.mp <| by
    rw [(resolveStmts_walks context p hp s).scopes, length_enterAll, hs]
    rfl

end Resolution

end ClassScript
