import ClassScript.Proofs.Syntax.Completeness
import ClassScript.Proofs.Syntax.Vouching

/-!
# What is read is spelled

The rule for a phrase vouches for a derivation: in a run without a report the tokens
that it took, all of them and in their order, spell the phrase that it yields.  A
report may be followed by anything, as tokens are skipped behind a mistake and values
are dropped.

A choice takes every `elif` and `else` that it can have, so an open statement is never
followed by one.

A rule that is nested up to a depth vouches for its runs on fewer tokens than that
(`Rules.Sound`, `Rules.sound_ofDepth`).  So the tokens of a program that is read without
a mistake are a derivation of that program (`Parse.spells_of_mistakes`).
-/

namespace ClassScript

namespace Parser

/-- Rules that vouch for a derivation in runs on fewer than `n` tokens. -/
structure Rules.Sound (rules : Rules) (n : Nat) : Prop where
  bound : n ≤ rules.bound
  expression : Vouches n rules.expression fun ts e _ => Spells ts (.expression .assignment e)
  statement : Vouches n rules.statement fun ts s r =>
    ∃ isOpen, Spells ts (.statement s isOpen) ∧ (isOpen = true → EndsChoice r)
  declaration : Vouches n rules.declaration fun ts o _ =>
    ∃ s isOpen, o = some s ∧ Spells ts (.declaration s isOpen)

/-- A rule that vouches for expressions of a level. -/
def VouchesLevel (n : Nat) (l : Level) (x : Parser (Expr Unit)) : Prop :=
  Vouches n x fun ts e _ => Spells ts (.expression l e)

namespace Rules.Sound

variable {rules : Rules} {n : Nat} (hr : rules.Sound n)
include hr

/-! ### Blocks and functions -/

theorem statements (bound : Nat) : Vouches n (block.statements rules bound) fun ts body _ =>
    Spells ts (.declarations body) := by
  induction bound with
  | zero => exact .pure fun _ _ => .noDeclarations
  | succ bound ih =>
    refine .peek fun k => ?_
    split
    · exact .pure fun _ _ _ => .noDeclarations
    · exact .pure fun _ _ _ => .noDeclarations
    · refine hr.declaration.bind fun o us => .last (ih.imp ?_)
      rintro ts body r hbody ⟨s, isOpen, rfl, hs⟩ -
      exact .declarations hs hbody

/-- A block that is read without a report is spelled up to its closing brace. -/
theorem block : Vouches n (block rules) fun ts body _ =>
    ∃ us closing, ts = us ++ [closing] ∧ closing.kind = .rightBrace ∧
      Spells us (.declarations body) :=
  (hr.statements _).bind fun _ us => .expect fun closing => .pure fun _ _ hc hbody =>
    ⟨us, closing, rfl, hc, hbody⟩

/-- The parameters and the body of a function. -/
theorem code {α : Type} (opening brace : Expectation) (f : List Name → List (Stmt Unit) → α) :
    Vouches (n + 1) (do
      let _ ← expect .leftParen opening
      let names ← parameters rules.bound
      let _ ← expect .leftBrace brace
      let body ← Parser.block rules
      return f names body) fun ts a _ =>
        ∃ names body, a = f names body ∧ Spells ts (.code names body) := by
  refine .expect fun opening => (Vouches.parameters hr.bound).bind fun names us =>
    .expect fun brace => .last ((hr.block.mono (Nat.sub_le _ _)).imp ?_)
  rintro vs body r ⟨ws, closing', rfl, hc', hbody⟩ hbrace ⟨us, closing, rfl, hc, hnames, hlength⟩ ho
  refine ⟨names, body, rfl, ?_⟩
  have hblock : Spells (brace :: (ws ++ [closing'])) (.block body) := .block hbrace hbody hc'
  simpa using Spells.code ho hnames hlength hc hblock

/-! ### Expressions -/

/-- A literal, a name, a function or a group is spelled by its tokens. -/
theorem primary : VouchesLevel (n + 1) .primary (primary rules) := by
  refine .take? (.giveUp _ : Vouches _ (Parser.giveUp _) _) fun t a ht => ?_
  rw [primaryToken?_eq] at ht
  split at ht
  · rename_i hk
    cases ht
    dsimp only
    split
    · exact .pure fun _ _ => .falsity ‹_›
    · exact .pure fun _ _ => .truth ‹_›
    · exact .pure fun _ _ => .nil ‹_›
    · exact .pure fun _ _ => .literal (.inl ‹_›)
    · exact .pure fun _ _ => .literal (.inr ‹_›)
    · exact .pure fun _ _ => .this ‹_›
    · exact .expect fun dot => .expectName fun name => .pure fun _ _ method hm he hd => by
        subst he
        exact .super ‹_› hd hm
    · refine Vouches.mono ((hr.code _ _ (fun names body => Expr.lambda t.line names body)).imp ?_)
        (Nat.le_succ _)
      rintro ts e r ⟨names, body, rfl, hcode⟩
      exact .lambda ‹_› hcode
    · refine hr.expression.bind fun e us => .expect fun closing => .pure fun _ _ hc he => ?_
      exact .grouping ‹_› he hc
    · have hname : t.kind = .identifier := by
        unfold TokenKind.startsOperand at hk
        split at hk <;> simp_all
      exact .pure fun _ _ => .variable hname
  · cases ht

/-- So are arguments, of which there are not too many. -/
theorem arguments : Vouches n
    (parenthesized .tooManyArguments .argumentsEnd rules.expression rules.bound) fun ts p _ =>
      ∃ us closing, ts = us ++ [closing] ∧ closing.kind = .rightParen ∧ p.2 = closing.line ∧
        Spells us (.arguments p.1) ∧ p.1.length ≤ maxArguments := by
  refine (Vouches.parenthesized hr.expression hr.bound).imp ?_
  rintro ts p r ⟨us, closing, hts, hc, hline, hes, hlength⟩
  exact ⟨us, closing, hts, hc, hline, hes.arguments, hlength⟩

/-- Calls and properties continue the expression in front of them. -/
theorem callSuffixes (bound : Nat) (a : Expr Unit) :
    Vouches (n + 1) (callSuffixes rules bound a) fun ts e _ => Continued Suffix a ts e := by
  induction bound generalizing a with
  | zero => exact .pure fun _ _ => .done a
  | succ bound ih =>
    refine .peekTaking fun k => ?_
    split
    · refine .inr ⟨_, _, rfl, rfl, hr.arguments.bind ?_⟩
      rintro ⟨es, line⟩ us
      refine ((ih _).mono (Nat.le_succ _)).imp ?_
      rintro ts e r hcont ⟨us, closing, rfl, hc, rfl, hes, hlength⟩ opening ho
      exact .more (.call ho hes hlength hc) hcont
    · refine .inr ⟨_, _, rfl, rfl, .expectName fun name => ?_⟩
      refine ((ih _).mono (by omega)).imp ?_
      rintro ts e r hcont t ht rfl dot hd
      exact .more (.get hd ht) hcont
    · exact .inl (.pure fun _ _ _ => .done a)

theorem call : VouchesLevel (n + 1) .call (call rules) :=
  hr.primary.bind fun a us => (hr.callSuffixes _ a).imp fun _ _ _ hcont ha =>
    hcont.spells_call (ha.loosen (by decide))

/-- Operators are spelled in front of their operand. -/
theorem unary : VouchesLevel (n + 1) .unary (unary rules) := by
  have hcall : VouchesLevel (n + 1) .unary (Parser.call rules) :=
    hr.call.imp fun _ _ _ h => h.loosen (by decide)
  have hoperators : ∀ bound, VouchesLevel (n + 1) .unary (unary.operators rules bound) := by
    intro bound
    induction bound with
    | zero => exact hcall
    | succ bound ih =>
      refine .take? (hcall.imp fun _ _ _ h _ => h) fun t a ht => ?_
      obtain ⟨op, hop, rfl⟩ := Option.map_eq_some_iff.mp ht
      refine .last (Vouches.mono (ih.imp ?_) (Nat.sub_le _ _))
      intro ts e r he
      have htoken : t.kind = op.token := by
        revert hop
        cases t.kind <;> rintro ⟨⟩ <;> rfl
      exact .unary le_rfl htoken he
  exact hoperators rules.bound

omit hr in
/-- Operators of a level between operands of the next one. -/
theorem leftAssociative {l : Level} (hl : l.IsInfix)
    {operator? : Token → Option (Expr Unit → Expr Unit → Expr Unit)}
    (hop : ∀ t join, operator? t = some join ↔ l.Joins t join)
    {operand : Parser (Expr Unit)} (ho : VouchesLevel n l.tighter operand) (bound : Nat) :
    VouchesLevel n l (leftAssociative operator? operand bound) := by
  have hfurther : ∀ (bound : Nat) (a : Expr Unit),
      Vouches n (leftAssociative.further operator? operand bound a)
        fun ts e _ => Continued l.Step a ts e := by
    intro bound
    induction bound with
    | zero => exact fun a => .pure fun _ _ => .done a
    | succ bound ih =>
      intro a
      refine .take? (.pure fun _ _ _ => .done a) fun t join hj => ?_
      refine (ho.mono (Nat.sub_le _ _)).bind fun b us => ((ih _).mono (Nat.sub_le _ _)).imp ?_
      intro ts e r hcont hb
      exact .more (.mk ((hop t join).mp hj) hb) hcont
  exact ho.bind fun a us => (hfurther bound a).imp fun _ _ _ hcont ha =>
    hcont.spells (ha.loosen hl.lt_tighter.le)

/-- The levels of the operators are those of the grammar. -/
theorem disjunction : VouchesLevel (n + 1) .disjunction (disjunction rules) := by
  have hfactor : VouchesLevel (n + 1) .factor (factor rules) :=
    leftAssociative ⟨by decide, by decide⟩ (Rules.Complete.binaryAt_iff .factor) hr.unary _
  have hterm : VouchesLevel (n + 1) .term (term rules) :=
    leftAssociative ⟨by decide, by decide⟩ (Rules.Complete.binaryAt_iff .term) hfactor _
  have hcomparison : VouchesLevel (n + 1) .comparison (comparison rules) :=
    leftAssociative ⟨by decide, by decide⟩ (Rules.Complete.binaryAt_iff .comparison) hterm _
  have hequality : VouchesLevel (n + 1) .equality (equality rules) :=
    leftAssociative ⟨by decide, by decide⟩ (Rules.Complete.binaryAt_iff .equality) hcomparison _
  have hconjunction : VouchesLevel (n + 1) .conjunction (conjunction rules) :=
    leftAssociative ⟨by decide, by decide⟩ (Rules.Complete.logicalAt_iff .and) hequality _
  exact leftAssociative ⟨by decide, by decide⟩ (Rules.Complete.logicalAt_iff .or) hconjunction _

/-- An assignment without a report has a target that may be assigned to. -/
theorem assignment : VouchesLevel (n + 1) .assignment (assignment rules) := by
  refine hr.disjunction.bind fun target us => .accept ?_ fun equal he => ?_
  · refine .pure fun _ _ _ htarget => ?_
    simpa using htarget.loosen (Level.assignment_le _)
  · refine .get fun s => hr.expression.bind fun value vs => ?_
    have hassignment : ∀ e, assignment? target value = some e → ∀ {us vs : List Token},
        Spells us (.expression .disjunction target) → Spells vs (.expression .assignment value) →
        Spells (us ++ equal :: vs) (.expression .assignment e) := by
      intro e hassign us vs htarget hvalue
      cases target <;> cases hassign
      · cases htarget with
        | «variable» ht => exact .assign ht he hvalue
      · cases htarget with
        | get _ ho hd hn => simpa using Spells.set ho hd hn he hvalue
    split
    · rename_i e hassign
      exact .pure fun _ _ hvalue htarget => by
        simpa using hassignment e hassign htarget (by simpa using hvalue)
    · exact (Vouches.reportAt _ _).bind fun _ _ => .pure fun _ _ h => h.elim

/-! ### Statements -/

omit hr in
theorem expressionStatement {x : Parser (Expr Unit)} (hx : VouchesLevel n .assignment x) :
    Vouches n (expressionStatement x) fun ts s _ => ∃ us semicolon e, ts = us ++ [semicolon] ∧
      semicolon.kind = .semicolon ∧ s = .expression e ∧ Spells us (.expression .assignment e) :=
  hx.bind fun e us => .expect fun semicolon => .pure fun _ _ hs he =>
    ⟨us, semicolon, e, rfl, hs, rfl, he⟩

theorem optional (kind : TokenKind) : Vouches n (unlessNext kind rules.expression) fun ts e _ =>
    Spells ts (.optional e) := by
  refine .nextIs fun c => ?_
  split
  · exact .pure fun _ _ _ => .missing
  · exact .last (hr.expression.imp fun ts e r he _ => .present he)

theorem condition (opening closing : Expectation) :
    Vouches (n + 1) (condition rules opening closing) fun ts e _ => Spells ts (.condition e) :=
  .expect fun _ => hr.expression.bind fun _ _ => .expect fun _ =>
    .pure fun _ _ hc he ho => .condition ho he hc

/-- Behind `var`, a declaration of a variable is spelled. -/
theorem varDeclaration : Vouches n (varDeclaration rules) fun ts s _ =>
    ∀ word : Token, word.kind = .varKw →
      ∃ name e, s = .var name e ∧ Spells (word :: ts) (.variable name e) := by
  refine .expectName fun name => .accept ?_ fun equal he => ?_
  · have hnone : Vouches (n - 1) (Pure.pure none : Parser (Option (Expr Unit)))
        fun ts e _ => ts = [] ∧ e = none := .pure fun _ _ => ⟨rfl, rfl⟩
    refine hnone.bind fun e us => .expect fun semicolon => .pure ?_
    rintro r - hs ⟨rfl, rfl⟩ - t ht rfl word hw
    exact ⟨_, none, rfl, .plainVariable hw ht hs⟩
  · have hsome : Vouches (n - 1 - 1) (some <$> rules.expression) fun ts o _ =>
        ∃ e, o = some e ∧ Spells ts (.expression .assignment e) :=
      .map ((hr.expression.mono (by omega)).imp fun ts e r he => ⟨e, rfl, he⟩)
    refine hsome.bind fun o us => .expect fun semicolon => .pure ?_
    rintro r - hs ⟨e, rfl, hvalue⟩ t ht rfl word hw
    exact ⟨_, some e, rfl, .initializedVariable hw ht he hvalue hs⟩

theorem forInitializer : Vouches n (forInitializer rules) fun ts start _ =>
    Spells ts (.initializer start) := by
  refine .peekTaking fun k => ?_
  split
  · exact .inr ⟨_, _, rfl, rfl, .pure fun _ _ t ht => .noInitializer ht⟩
  · refine .inr ⟨_, _, rfl, rfl, .last ((hr.varDeclaration.mono (Nat.sub_le _ _)).imp ?_)⟩
    intro ts s r hs word hword
    obtain ⟨name, e, rfl, hvariable⟩ := hs word hword
    exact .variableInitializer hvariable
  · refine .inl (.last ((expressionStatement hr.expression).imp ?_))
    rintro ts s r ⟨us, semicolon, e, rfl, hs, rfl, he⟩ -
    exact .expressionInitializer he hs

/-- Behind `for`, the clauses and the body are spelled. -/
theorem forStatement : Vouches n (forStatement rules) fun ts s r =>
    ∀ word : Token, word.kind = .forKw →
      ∃ isOpen, Spells (word :: ts) (.statement s isOpen) ∧ (isOpen = true → EndsChoice r) := by
  refine .expect fun opening => (hr.forInitializer.mono (Nat.sub_le _ _)).bind fun start us =>
    ((hr.optional _).mono (Nat.sub_le _ _)).bind fun c vs => .expect fun semicolon =>
      ((hr.optional _).mono (by omega)).bind fun step ws => .expect fun closing =>
        .last ((hr.statement.mono (by omega)).imp ?_)
  rintro xs s r ⟨isOpen, hs, hend⟩ hc hstep hsemicolon hcondition hstart ho word hw
  refine ⟨isOpen, ?_, hend⟩
  simpa using Spells.forLoop hw ho hstart hcondition hsemicolon hstep hc hs

/-- All branches are read, so no further `elif` follows. -/
theorem elifBranches {bound m : Nat} (hm : m ≤ bound + 1) (hn : m ≤ n + 1) :
    Vouches m (elifBranches rules bound) fun ts branches r =>
      ∃ isOpen, Spells ts (.elifs branches isOpen) ∧ (isOpen = true → EndsChoice r) ∧
        ∀ t us, r = t :: us → t.kind ≠ .elifKw := by
  induction bound generalizing m with
  | zero =>
    refine .pure fun r hlength => ⟨false, .noElifs, nofun, ?_⟩
    rintro t us rfl
    simp at hlength
    omega
  | succ bound ih =>
    refine .accept (.pure fun r _ helif => ⟨false, .noElifs, nofun, helif⟩) fun word hw => ?_
    refine ((hr.condition _ _).mono (by omega)).bind fun c us =>
      (hr.statement.mono (by omega)).bind fun s vs =>
        .last ((ih (m := m - 1) (by omega) (by omega)).imp ?_)
    rintro ts branches r ⟨lastOpen, hbranches, hlast, helif⟩ ⟨isOpen, hs, hend⟩ hc
    have himp : isOpen = true → branches = [] := fun hopen =>
      hbranches.elifs_of_endsChoice (hend hopen)
    refine ⟨isOpen || lastOpen, by simpa using Spells.elifs hw hc hs hbranches himp, ?_, helif⟩
    intro hopen
    rcases Bool.or_eq_true_iff.mp hopen with hopen | hopen
    · obtain rfl := himp hopen
      obtain ⟨rfl, -⟩ := hbranches.eq_nil_of_elifs
      exact hend hopen
    · exact hlast hopen

/-- A choice that another `else` could belong to is followed by none. -/
theorem ifStatement : Vouches n (ifStatement rules) fun ts s r =>
    ∀ word : Token, word.kind = .ifKw →
      ∃ isOpen, Spells (word :: ts) (.statement s isOpen) ∧ (isOpen = true → EndsChoice r) := by
  have hbound := hr.bound
  refine ((hr.condition _ _).mono (Nat.le_succ n)).bind fun c us => hr.statement.bind fun s vs =>
    (hr.elifBranches (m := n) (by omega) (Nat.le_succ n)).bind fun branches ws =>
      .accept ?_ fun otherwise ho => ?_
  · have hnone : Vouches n (Pure.pure none : Parser (Option (Stmt Unit)))
        fun ts e _ => ts = [] ∧ e = none := .pure fun _ _ => ⟨rfl, rfl⟩
    refine hnone.bind fun e xs => .pure ?_
    rintro r - ⟨rfl, rfl⟩ helse ⟨lastOpen, hbranches, hlast, helif⟩ ⟨isOpen, hs, hend⟩ hc word hw
    have hchoice : EndsChoice r := fun t us ht => ⟨helif t us ht, helse t us ht⟩
    have himp : isOpen = true → branches = [] := fun hopen =>
      hbranches.elifs_of_endsChoice (r := r) (by simpa using hend hopen)
    exact ⟨true, by simpa using Spells.ifStmt hw hc hs hbranches himp, fun _ => hchoice⟩
  · have hsome : Vouches (n - 1) (some <$> rules.statement) fun ts o r => ∃ s isOpen,
        o = some s ∧ Spells ts (.statement s isOpen) ∧ (isOpen = true → EndsChoice r) :=
      .map ((hr.statement.mono (Nat.sub_le _ _)).imp fun ts s r ⟨isOpen, hs, hend⟩ =>
        ⟨s, isOpen, rfl, hs, hend⟩)
    refine hsome.bind fun o xs => .pure ?_
    rintro r - ⟨s', lastOpen, rfl, hs', hend'⟩ ⟨elifOpen, hbranches, hlast, -⟩
      ⟨isOpen, hs, hend⟩ hc word hw
    obtain rfl : isOpen = false := Bool.eq_false_iff.mpr fun hopen =>
      hbranches.not_endsChoice_else ho (by simpa using hend hopen)
    obtain rfl : elifOpen = false := Bool.eq_false_iff.mpr fun hopen =>
      Spells.noElifs.not_endsChoice_else ho (by simpa using hlast hopen)
    exact ⟨lastOpen, by simpa using Spells.ifElse hw hc hs hbranches ho hs', by simpa using hend'⟩

theorem whileStatement : Vouches n (whileStatement rules) fun ts s r =>
    ∀ word : Token, word.kind = .whileKw →
      ∃ isOpen, Spells (word :: ts) (.statement s isOpen) ∧ (isOpen = true → EndsChoice r) := by
  refine ((hr.condition _ _).mono (Nat.le_succ n)).bind fun c us => .last (hr.statement.imp ?_)
  rintro ts s r ⟨isOpen, hs, hend⟩ hc word hw
  exact ⟨isOpen, .whileStmt hw hc hs, hend⟩

/-- A statement that is read without a report is spelled by its tokens. -/
theorem statementBody : Vouches (n + 1) (Parser.statement rules) fun ts s r =>
    ∃ isOpen, Spells ts (.statement s isOpen) ∧ (isOpen = true → EndsChoice r) := by
  refine .take? ?_ fun t a ht => ?_
  · refine (expressionStatement hr.assignment).imp ?_
    rintro ts s r ⟨us, semicolon, e, rfl, hs, rfl, he⟩ -
    exact ⟨false, .expressionStatement he hs, nofun⟩
  rw [statementWord?_eq] at ht
  split at ht
  · rename_i hk
    cases ht
    dsimp only
    split
    · exact hr.forStatement.imp fun ts s r h => h t ‹_›
    · exact hr.ifStatement.imp fun ts s r h => h t ‹_›
    · refine hr.expression.bind fun e us => .expect fun semicolon => .pure fun r _ hs he => ?_
      exact ⟨false, .print ‹_› he hs, nofun⟩
    · refine (hr.optional _).bind fun e us => .expect fun semicolon => .pure fun r _ hs he => ?_
      exact ⟨false, .returnStmt ‹_› he hs, nofun⟩
    · exact .expect fun semicolon => .pure fun r _ hs => ⟨false, .breakStmt ‹_› hs, nofun⟩
    · exact hr.whileStatement.imp fun ts s r h => h t ‹_›
    · have hbrace : t.kind = .leftBrace := by
        unfold TokenKind.startsStatement at hk
        split at hk <;> simp_all
      refine .last (hr.block.imp ?_)
      rintro ts body r ⟨us, closing, rfl, hc, hbody⟩
      exact ⟨false, .blockStatement (.block hbrace hbody hc), nofun⟩
  · cases ht

/-! ### Declarations -/

/-- So is a function. -/
theorem function (kind : FunctionKind) : Vouches (n + 1) (function rules kind) fun ts f _ =>
    Spells ts (.function f) := by
  refine .expectName fun name => ((hr.code _ _ (Function.mk name)).mono (Nat.le_succ n)).imp ?_
  rintro ts f r ⟨names, body, rfl, hcode⟩ t ht rfl
  exact .function ht hcode

theorem methods (bound : Nat) : Vouches n (methods rules bound) fun ts fs _ =>
    Spells ts (.methods fs) := by
  induction bound with
  | zero => exact .pure fun _ _ => .noMethods
  | succ bound ih =>
    refine .peek fun k => ?_
    split
    · exact .pure fun _ _ _ => .noMethods
    · exact .pure fun _ _ _ => .noMethods
    · refine ((hr.function _).mono (Nat.le_succ n)).bind fun f us => .last (ih.imp ?_)
      exact fun ts fs r hfs hf _ => .methods hf hfs

omit hr in
theorem superclass : Vouches n superclass fun ts parent _ => Spells ts (.superclass parent) := by
  refine .accept (.pure fun _ _ _ => .noSuperclass) fun less hless => .expectName fun name => ?_
  exact .pure fun _ _ t ht he => he ▸ .superclass hless ht

/-- Behind `class`, a declaration of a class is spelled. -/
theorem classDeclaration : Vouches n (classDeclaration rules) fun ts s _ =>
    ∀ word : Token, word.kind = .classKw → Spells (word :: ts) (.declaration s false) := by
  refine .expectName fun name => superclass.bind fun parent us => .expect fun opening =>
    ((hr.methods _).mono (by omega)).bind fun fs vs => .expect fun closing => .pure ?_
  intro r _ hc hfs ho hparent t ht he word hw
  subst he
  simpa using Spells.classDecl hw ht hparent ho hfs hc

theorem otherDeclaration : Vouches (n + 1) (otherDeclaration rules) fun ts s _ =>
    ∃ isOpen, Spells ts (.declaration s isOpen) := by
  refine .peekTaking fun k => ?_
  split
  · refine .inr ⟨_, _, rfl, rfl, hr.classDeclaration.imp ?_⟩
    exact fun ts s r h word hw => ⟨false, h word hw⟩
  · refine .inr ⟨_, _, rfl, rfl, hr.varDeclaration.imp ?_⟩
    intro ts s r h word hw
    obtain ⟨name, e, rfl, hvariable⟩ := h word hw
    exact ⟨false, .variableDecl hvariable⟩
  · refine .inl (hr.statementBody.imp ?_)
    rintro ts s r ⟨isOpen, hs, -⟩ -
    exact ⟨isOpen, .statementDecl hs⟩

/-- A declaration that is read without a report is spelled by its tokens. -/
theorem declarationBody : Vouches (n + 1) (declarationBody rules) fun ts s _ =>
    ∃ isOpen, Spells ts (.declaration s isOpen) := by
  have hfunction : Vouches n (do return Stmt.functionDecl (← Parser.function rules .function))
      fun ts s _ => ∀ word : Token, word.kind = .funKw →
        ∃ isOpen, Spells (word :: ts) (.declaration s isOpen) :=
    .last (((hr.function _).mono (Nat.le_succ n)).imp fun ts f r hf word hw =>
      ⟨false, .functionDecl hw hf⟩)
  refine .of_state fun s => ?_
  by_cases hnext : StartsFunction s.rest
  · obtain ⟨rest, mistakes⟩ := s
    obtain ⟨t, t', us, rfl, ht, ht'⟩ := hnext
    exact .inr ⟨t, t' :: us, _, rfl, declarationBody_of_function rules ht ht' us mistakes,
      hfunction.imp fun ts s r h _ => h t ht⟩
  · exact .inl ⟨_, declarationBody_of_other rules hnext,
      hr.otherDeclaration.imp fun ts s r h _ => h⟩

/-- A declaration that is given up makes a report. -/
theorem declarationOrSkip : Vouches (n + 1) (Parser.declaration rules) fun ts o _ =>
    ∃ s isOpen, o = some s ∧ Spells ts (.declaration s isOpen) := by
  have hbody := hr.declarationBody
  have hreported (s : ParseState) :
      reported (Parser.declaration rules) s = reported (Parser.declarationBody rules) s := by
    unfold reported Parser.declaration
    cases Parser.declarationBody rules s <;> rfl
  refine ⟨fun s => hreported s ▸ hbody.keeps s, fun s hs hquiet => ?_⟩
  obtain ⟨stmt, s', ts, hok, hts, isOpen, hspells⟩ := hbody.reads s hs (hreported s ▸ hquiet)
  refine ⟨some stmt, s', ts, ?_, hts, stmt, isOpen, rfl, hspells⟩
  unfold Parser.declaration
  rw [hok]

/-- A program that is read without a report is spelled by all of its tokens. -/
theorem program {bound m : Nat} (hm : m ≤ bound + 1) (hn : m ≤ n) :
    Vouches m (program rules bound) fun ts body r => r = [] ∧ Spells ts (.declarations body) := by
  induction bound generalizing m with
  | zero =>
    exact .pure fun r hlength => ⟨List.length_eq_zero_iff.mp (by omega), .noDeclarations⟩
  | succ bound ih =>
    refine .peek fun k => ?_
    split
    · refine .pure fun r _ hr => ⟨?_, .noDeclarations⟩
      simpa using hr
    · refine (hr.declaration.mono hn).bind_lt ?_ fun o us =>
        .last ((ih (m := m - 1) (by omega) (by omega)).imp ?_)
      · rintro us o r ⟨s, isOpen, rfl, hs⟩
        obtain ⟨t, rest, rfl, -⟩ := hs.starts
        simp
      · rintro ts body r ⟨rfl, hbody⟩ ⟨s, isOpen, rfl, hs⟩ -
        exact ⟨rfl, .declarations hs hbody⟩

end Rules.Sound

/-- Rules that are nested up to a depth vouch for runs on fewer tokens. -/
theorem Rules.sound_ofDepth : ∀ depth, (Rules.ofDepth depth).Sound depth
  | 0 =>
    have hthrow {α : Type} (Φ : List Token → α → List Token → Prop) :
        Vouches 0 (throw () : Parser α) Φ :=
      ⟨fun _ => le_rfl, fun _ hs => absurd hs (Nat.not_lt_zero _)⟩
    ⟨le_rfl, hthrow _, hthrow _, hthrow _⟩
  | depth + 1 =>
    have hr := sound_ofDepth depth
    ⟨le_rfl, hr.assignment, hr.statementBody, hr.declarationOrSkip⟩

end Parser

/-- The tokens of a program that is read without a mistake are a derivation of it. -/
theorem Parse.spells_of_mistakes {tokens : List Token} (h : (Parse.ofTokens tokens).mistakes = []) :
    Spells tokens (.declarations (Parse.ofTokens tokens).program) := by
  have hr := Parser.Rules.sound_ofDepth (tokens.length + 1)
  have hprogram := hr.program (le_refl (tokens.length + 1)) le_rfl
  have hreads := hprogram.reads ⟨tokens, []⟩ (Nat.lt_succ_self _)
  unfold Parse.ofTokens at h ⊢
  unfold Parser.reported at hreads
  dsimp only at h hreads ⊢
  cases hx : Parser.program (.ofDepth (tokens.length + 1)) tokens.length ⟨tokens, []⟩ with
  | ok program s =>
    rw [hx] at h hreads
    obtain ⟨_, _, ts, ⟨⟩, hts, hrest, hspells⟩ := hreads (congrArg List.length h)
    rw [hrest, List.append_nil] at hts
    rwa [hts]
  | error e s =>
    rw [hx] at h hreads
    obtain ⟨_, _, _, hok, -⟩ := hreads (congrArg List.length h)
    cases hok

end ClassScript
