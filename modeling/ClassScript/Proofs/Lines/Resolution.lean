import ClassScript.Proofs.Lines.Tree
import ClassScript.Proofs.Scope.Walk

/-!
# Resolution on other lines

Resolution looks at the open scopes and never at a line or at what was reported and
recorded before.  So a walk over a relined tree, after other reports and records, does
what the walk over the tree does, with the lines changed (`Resolution.Mirrors`,
`resolveStmts_mirrors`).

At its outermost level a program opens no scope for long, so the second half of a program
is resolved as on its own (`Resolution.ofProgram_append`).
-/

namespace ClassScript

/-- A recorded reference on another line. -/
def LocalReference.reline (f : Nat → Nat) (r : LocalReference) : LocalReference :=
  { r with name := r.name.reline f }

/-- What resolution comes to, on other lines. -/
def Resolution.reline (f : Nat → Nat) (r : Resolution) : Resolution where
  program := relineStmts f r.program
  diagnostics := r.diagnostics.map (Diagnostic.reline f)
  references := r.references.map (LocalReference.reline f)

namespace Resolution

/-- A state of the walk on other lines, after other reports and records. -/
def State.reline (f : Nat → Nat) (reports : List Diagnostic) (records : Array LocalReference)
    (s : State) : State where
  scopes := s.scopes
  diagnostics := reports ++ s.diagnostics.map (Diagnostic.reline f)
  references := records ++ s.references.map (LocalReference.reline f)

/-- The step `x'` does what `x` does, on other lines and after other reports and records. -/
def Mirrors (f : Nat → Nat) (reports : List Diagnostic) (records : Array LocalReference)
    {α β : Type} (φ : α → β) (x : Walk α) (x' : Walk β) : Prop :=
  ∀ s, x' (s.reline f reports records) = (φ (x s).1, (x s).2.reline f reports records)

variable {f : Nat → Nat} {reports : List Diagnostic} {records : Array LocalReference}

namespace Mirrors

variable {α α' β β' : Type} {φ : α → α'} {ψ : β → β'}

theorem pure {a : α} {a' : α'} (h : φ a = a') :
    Mirrors f reports records φ (pure a) (Pure.pure a') := by
  subst h
  exact fun _ => rfl

/-- Steps in sequence mirror steps in sequence. -/
theorem bind {x : Walk α} {x' : Walk α'} {y : α → Walk β} {y' : α' → Walk β'}
    (hx : Mirrors f reports records φ x x')
    (hy : ∀ a, Mirrors f reports records ψ (y a) (y' (φ a))) :
    Mirrors f reports records ψ (x >>= y) (x' >>= y') := by
  intro s
  show y' (x' _).1 (x' _).2 = _
  rw [hx s]
  exact hy (x s).1 (x s).2

/-- A last step that only shapes the value. -/
theorem after {x : Walk α} {x' : Walk α'} {g : α → β} {g' : α' → β'}
    (hx : Mirrors f reports records φ x x') (h : ∀ a, ψ (g a) = g' (φ a)) :
    Mirrors f reports records ψ (x >>= fun a => Pure.pure (g a))
      (x' >>= fun a => Pure.pure (g' a)) :=
  hx.bind fun a => pure (h a)

/-- A step that depends on the open scopes. -/
theorem get {y : State → Walk β} {y' : State → Walk β'}
    (h : ∀ s, Mirrors f reports records ψ (y s) (y' (s.reline f reports records))) :
    Mirrors f reports records ψ (get >>= y) (get >>= y') :=
  fun s => h s s

/-- The same branch is taken on both sides. -/
theorem ite {c : Prop} [Decidable c] {x y : Walk α} {x' y' : Walk α'}
    (hx : Mirrors f reports records φ x x') (hy : Mirrors f reports records φ y y') :
    Mirrors f reports records φ (if c then x else y) (if c then x' else y') := by
  split
  · exact hx
  · exact hy

theorem change {g g' : State → State}
    (h : ∀ s, g' (s.reline f reports records) = (g s).reline f reports records) :
    Mirrors f reports records id (modify g) (modify g') :=
  fun s => congrArg (Prod.mk ()) (h s)

/-- Scopes have no lines, so they change in the same way. -/
theorem changeScopes (g : List StaticScope → List StaticScope) :
    Mirrors f reports records id (modify fun s => { s with scopes := g s.scopes })
      (modify fun s => { s with scopes := g s.scopes }) :=
  change fun _ => rfl

/-- A report names the line that its word has moved to. -/
theorem report (word : Name) (error : ScopeError) :
    Mirrors f reports records id (report word error)
      (Resolution.report (word.reline f) error) :=
  change fun s => by simp [State.reline, Diagnostic.reline, Name.reline]

/-- The same mistakes are reported. -/
theorem check {c : Prop} [Decidable c] (word : Name) (error : ScopeError) {x : Walk α}
    {x' : Walk α'} (hx : Mirrors f reports records φ x x') :
    Mirrors f reports records φ
      (if c then Resolution.report word error >>= fun _ => x else x)
      (if c then Resolution.report (word.reline f) error >>= fun _ => x' else x') :=
  ite ((report word error).bind fun _ => hx) hx

/-- A scope is opened and closed on both sides. -/
theorem inScope (scope : StaticScope) {x : Walk α} {x' : Walk α'}
    (hx : Mirrors f reports records φ x x') :
    Mirrors f reports records φ (inScope scope x) (Resolution.inScope scope x') :=
  (changeScopes (scope :: ·)).bind fun _ =>
    hx.bind fun _ => (changeScopes List.tail).bind fun _ => pure rfl

/-- So are the scopes of a class. -/
theorem inClass (derived : Bool) {x : Walk α} {x' : Walk α'}
    (hx : Mirrors f reports records φ x x') :
    Mirrors f reports records φ (inClass derived x) (Resolution.inClass derived x') := by
  unfold Resolution.inClass
  cases derived with
  | false => exact hx.inScope _
  | true => exact (hx.inScope _).inScope _

/-! ### Names -/

/-- A name is declared with the same reports. -/
theorem declare (name : Name) :
    Mirrors f reports records id (declare name) (Resolution.declare (name.reline f)) :=
  get fun _ => check _ _ (changeScopes (enter name.text false))

theorem define (name : Name) :
    Mirrors f reports records id (define name) (Resolution.define (name.reline f)) :=
  changeScopes (enter name.text true)

theorem introduce (name : Name) :
    Mirrors f reports records id (introduce name) (Resolution.introduce (name.reline f)) :=
  (declare name).bind fun _ => define name

theorem introduceAll : ∀ names : List Name,
    Mirrors f reports records id (introduceAll names)
      (Resolution.introduceAll (names.map (Name.reline f)))
  | [] => pure rfl
  | name :: rest => (introduce name).bind fun _ => introduceAll rest

/-- A reference gets the same distance, and its record another line. -/
theorem bindName (kind : ReferenceKind) (name : Name) :
    Mirrors f reports records id (Resolution.bind kind name)
      (Resolution.bind kind (name.reline f)) := by
  refine get fun s => ?_
  dsimp only
  rw [Name.text_reline, show (s.reline f reports records).scopes = s.scopes from rfl]
  cases bindingOf name.text s.scopes with
  | global => exact pure rfl
  | «local» distance =>
    have hrecord : Mirrors f reports records id
        (modify fun s : State =>
          { s with references := s.references.push ⟨kind, name, distance⟩ })
        (modify fun s : State =>
          { s with references := s.references.push ⟨kind, name.reline f, distance⟩ }) :=
      change fun s => by simp [State.reline, LocalReference.reline]
    exact hrecord.bind fun _ => pure rfl

/-- A variable that is read in its own initializer is reported on both sides. -/
theorem readVariable (name : Name) :
    Mirrors f reports records (Reference.reline f) (readVariable name)
      (Resolution.readVariable (name.reline f)) :=
  get fun _ => check _ _ ((bindName _ _).after fun _ => rfl)

theorem writeVariable (name : Name) :
    Mirrors f reports records (Reference.reline f) (writeVariable name)
      (Resolution.writeVariable (name.reline f)) :=
  (bindName _ _).after fun _ => rfl

/-- `this` is reported outside of a class on both sides. -/
theorem readThis (context : Context) (line : Nat) :
    Mirrors f reports records id (readThis context line)
      (Resolution.readThis context (f line)) := by
  unfold Resolution.readThis
  dsimp only
  split
  · exact (report ⟨"this", line⟩ _).bind fun _ => pure rfl
  · exact bindName _ ⟨"this", line⟩

/-- `super` is reported in the same places. -/
theorem readSuper (context : Context) (line : Nat) :
    Mirrors f reports records id (readSuper context line)
      (Resolution.readSuper context (f line)) := by
  unfold Resolution.readSuper
  dsimp only
  split
  · exact (report ⟨"super", line⟩ _).bind fun _ => bindName _ ⟨"super", line⟩
  · exact (report ⟨"super", line⟩ _).bind fun _ => bindName _ ⟨"super", line⟩
  · exact bindName _ ⟨"super", line⟩

/-- A `return` is reported in the same places. -/
theorem checkReturn (context : Context) (line : Nat) (hasValue : Bool) :
    Mirrors f reports records id (checkReturn context line hasValue)
      (Resolution.checkReturn context (f line) hasValue) := by
  unfold Resolution.checkReturn
  exact check ⟨"return", line⟩ _ (ite (report ⟨"return", line⟩ _) (pure rfl))

/-- A class that inherits from itself is reported on both sides. -/
theorem resolveSuperclass (name : Name) : ∀ parent : Option (Reference Unit),
    Mirrors f reports records (Option.map (Reference.reline f)) (resolveSuperclass name parent)
      (Resolution.resolveSuperclass (name.reline f) (parent.map (Reference.reline f)))
  | none => pure rfl
  | some _ => check _ _ ((readVariable _).after fun _ => rfl)

end Mirrors

/-! ## The walk over a tree -/

mutual

/-- An expression on other lines gets the same bindings. -/
theorem resolveExpr_mirrors (context : Context) : ∀ e : Expr Unit,
    Mirrors f reports records (Expr.reline f) (resolveExpr context e)
      (resolveExpr context (e.reline f))
  | .literal _ => .pure rfl
  | .grouping inner => (resolveExpr_mirrors context inner).after fun _ => rfl
  | .unary _ _ operand => (resolveExpr_mirrors context operand).after fun _ => rfl
  | .binary left _ _ right =>
      (resolveExpr_mirrors context left).bind fun _ =>
        (resolveExpr_mirrors context right).after fun _ => rfl
  | .logical left _ _ right =>
      (resolveExpr_mirrors context left).bind fun _ =>
        (resolveExpr_mirrors context right).after fun _ => rfl
  | .variable target => (Mirrors.readVariable target.name).after fun _ => rfl
  | .assign target value =>
      (resolveExpr_mirrors context value).bind fun _ =>
        (Mirrors.writeVariable target.name).after fun _ => rfl
  | .call callee _ arguments =>
      (resolveExpr_mirrors context callee).bind fun _ =>
        (resolveExprs_mirrors context arguments).after fun _ => rfl
  | .get object _ => (resolveExpr_mirrors context object).after fun _ => rfl
  | .set object _ value =>
      (resolveExpr_mirrors context value).bind fun _ =>
        (resolveExpr_mirrors context object).after fun _ => rfl
  | .this line _ => (Mirrors.readThis context line).after fun _ => rfl
  | .super line _ _ => (Mirrors.readSuper context line).after fun _ => rfl
  | .lambda _ parameters body =>
      (((Mirrors.introduceAll parameters).bind fun _ =>
        resolveStmts_mirrors _ body).inScope ∅).after fun _ => rfl

theorem resolveExprs_mirrors (context : Context) : ∀ es : List (Expr Unit),
    Mirrors f reports records (relineExprs f) (resolveExprs context es)
      (resolveExprs context (relineExprs f es))
  | [] => .pure rfl
  | e :: rest =>
      (resolveExpr_mirrors context e).bind fun _ =>
        (resolveExprs_mirrors context rest).after fun _ => rfl

/-- A statement on other lines gets the same bindings. -/
theorem resolveStmt_mirrors (context : Context) : ∀ s : Stmt Unit,
    Mirrors f reports records (Stmt.reline f) (resolveStmt context s)
      (resolveStmt context (s.reline f))
  | .expression value => (resolveExpr_mirrors context value).after fun _ => rfl
  | .print value => (resolveExpr_mirrors context value).after fun _ => rfl
  | .var name none => (Mirrors.introduce name).after fun _ => rfl
  | .var name (some value) =>
      (Mirrors.declare name).bind fun _ => (resolveExpr_mirrors context value).bind fun _ =>
        (Mirrors.define name).after fun _ => rfl
  | .block body => ((resolveStmts_mirrors context body).inScope ∅).after fun _ => rfl
  | .ifStmt condition thenBranch elifs none =>
      (resolveExpr_mirrors context condition).bind fun _ =>
        (resolveStmt_mirrors context thenBranch).bind fun _ =>
          (resolveElifs_mirrors context elifs).after fun _ => rfl
  | .ifStmt condition thenBranch elifs (some s) =>
      (resolveExpr_mirrors context condition).bind fun _ =>
        (resolveStmt_mirrors context thenBranch).bind fun _ =>
          (resolveElifs_mirrors context elifs).bind fun _ =>
            (resolveStmt_mirrors context s).after fun _ => rfl
  | .whileStmt condition body =>
      (resolveExpr_mirrors context condition).bind fun _ =>
        (resolveStmt_mirrors context body).after fun _ => rfl
  | .functionDecl (.mk name parameters body) =>
      (Mirrors.introduce name).bind fun _ =>
        (resolveFunction_mirrors context .function (.mk name parameters body)).after fun _ => rfl
  | .returnStmt line none => (Mirrors.checkReturn context line false).after fun _ => rfl
  | .returnStmt line (some value) =>
      (Mirrors.checkReturn context line true).bind fun _ =>
        (resolveExpr_mirrors context value).after fun _ => rfl
  | .breakStmt _ => .pure rfl
  | .classDecl name superclass methods =>
      (Mirrors.introduce name).bind fun _ =>
        (Mirrors.resolveSuperclass name superclass).bind fun superclass => by
          rw [Option.isSome_map]
          exact ((resolveMethods_mirrors _ methods).inClass _).after fun _ => rfl

/-- Statements on other lines get the same bindings. -/
theorem resolveStmts_mirrors (context : Context) : ∀ body : List (Stmt Unit),
    Mirrors f reports records (relineStmts f) (resolveStmts context body)
      (resolveStmts context (relineStmts f body))
  | [] => .pure rfl
  | s :: rest =>
      (resolveStmt_mirrors context s).bind fun _ =>
        (resolveStmts_mirrors context rest).after fun _ => rfl

theorem resolveElifs_mirrors (context : Context) : ∀ branches : List (Elif Unit),
    Mirrors f reports records (relineElifs f) (resolveElifs context branches)
      (resolveElifs context (relineElifs f branches))
  | [] => .pure rfl
  | .mk condition body :: rest =>
      (resolveExpr_mirrors context condition).bind fun _ =>
        (resolveStmt_mirrors context body).bind fun _ =>
          (resolveElifs_mirrors context rest).after fun _ => rfl

/-- A function on other lines gets the same bindings. -/
theorem resolveFunction_mirrors (context : Context) (kind : FunctionContext) :
    ∀ declaration : Function Unit,
      Mirrors f reports records (Function.reline f) (resolveFunction context kind declaration)
        (resolveFunction context kind (declaration.reline f))
  | .mk _ parameters body =>
      (((Mirrors.introduceAll parameters).bind fun _ =>
        resolveStmts_mirrors _ body).inScope ∅).after fun _ => rfl

theorem resolveMethods_mirrors (context : Context) : ∀ methods : List (Function Unit),
    Mirrors f reports records (relineFunctions f) (resolveMethods context methods)
      (resolveMethods context (relineFunctions f methods))
  | [] => .pure rfl
  | .mk name parameters body :: rest =>
      (resolveFunction_mirrors context (methodContext name)
        (.mk name parameters body)).bind fun _ =>
        (resolveMethods_mirrors context rest).after fun _ => rfl

end

/-! ## Programs -/

/-- Statements are resolved in the state that those before them leave. -/
theorem resolveStmts_append (context : Context) (p q : List (Stmt Unit)) (s : State) :
    resolveStmts context (p ++ q) s =
      ((resolveStmts context p s).1 ++ (resolveStmts context q (resolveStmts context p s).2).1,
        (resolveStmts context q (resolveStmts context p s).2).2) := by
  induction p generalizing s with
  | nil => rfl
  | cons stmt rest ih =>
    have hrest := ih (resolveStmt context stmt s).2
    show (_ :: (resolveStmts context (rest ++ q) _).1, (resolveStmts context (rest ++ q) _).2) = _
    rw [hrest]
    rfl

/-- The second half of a program is resolved as on its own. -/
theorem ofProgram_append {p : Program Unit} (hp : legalStmts p) (f : Nat → Nat)
    (q : Program Unit) :
    ofProgram (p ++ relineStmts f q) =
      ⟨(ofProgram p).program ++ relineStmts f (ofProgram q).program,
        (ofProgram p).diagnostics ++ (ofProgram q).diagnostics.map (Diagnostic.reline f),
        (ofProgram p).references ++ (ofProgram q).references.map (LocalReference.reline f)⟩ := by
  let start : State := ⟨[], [], #[]⟩
  let context : Context := ⟨.topLevel, .none⟩
  let middle := (resolveStmts context p start).2
  have hscopes : middle.scopes = [] := scopes_resolveStmts context hp rfl
  have hmiddle : middle = start.reline f middle.diagnostics middle.references := by
    simp [State.reline, start, ← hscopes]
  have hrest : resolveStmts context (relineStmts f q) middle =
      (relineStmts f (resolveStmts context q start).1,
        (resolveStmts context q start).2.reline f middle.diagnostics middle.references) :=
    (congrArg (resolveStmts context (relineStmts f q)) hmiddle).trans
      (resolveStmts_mirrors context q start)
  have hwhole := resolveStmts_append context p (relineStmts f q) start
  rw [show (resolveStmts context p start).2 = middle from rfl, hrest] at hwhole
  show (⟨(resolveStmts context (p ++ relineStmts f q) start).1,
    (resolveStmts context (p ++ relineStmts f q) start).2.diagnostics,
    (resolveStmts context (p ++ relineStmts f q) start).2.references⟩ : Resolution) = _
  rw [hwhole]
  rfl

/-- Resolution does not look at the lines. -/
theorem ofProgram_reline (f : Nat → Nat) (program : Program Unit) :
    ofProgram (relineStmts f program) = (ofProgram program).reline f := by
  have hnil : ofProgram [] = ⟨[], [], #[]⟩ := rfl
  have h := ofProgram_append (p := []) trivial f program
  simpa [Resolution.reline, hnil] using h

end Resolution

end ClassScript
