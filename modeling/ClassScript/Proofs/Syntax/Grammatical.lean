import ClassScript.Proofs.Syntax.Parts
import ClassScript.Proofs.Syntax.Soundness
import ClassScript.Token.Scan

/-!
# Grammatical trees

What the grammar demands of a tree can be said without tokens.  An operand holds
together as tightly as its place demands, the branches of choices and the bodies of
loops are no declarations, no list is too long, and no statement in front of an `elif`
or `else` ends in a choice that has no `else`.

The trees that are spelled are grammatical (`Spells.grammatical`).  So a program that is
read without a mistake is grammatical, and its tokens spell this program and no other
(`Parse.derivation`).
-/

namespace ClassScript

variable {β : Type}

/-- Whether a statement ends in a choice without an `else`. -/
def Stmt.endsOpen : Stmt β → Bool
  | .ifStmt _ _ _ none => true
  | .ifStmt _ _ _ (some s) => s.endsOpen
  | .whileStmt _ s => s.endsOpen
  | _ => false

mutual

/-- Expressions that the grammar allows. -/
def Expr.Grammatical : Expr β → Prop
  | .literal _ => True
  | .grouping inner => inner.Grammatical
  | .unary _ _ operand => .unary ≤ operand.level ∧ operand.Grammatical
  | .binary left op _ right =>
      (op.level ≤ left.level ∧ left.Grammatical) ∧ op.level < right.level ∧ right.Grammatical
  | .logical left op _ right =>
      (op.level ≤ left.level ∧ left.Grammatical) ∧ op.level < right.level ∧ right.Grammatical
  | .variable _ => True
  | .assign _ value => value.Grammatical
  | .call callee _ arguments =>
      (.call ≤ callee.level ∧ callee.Grammatical) ∧ grammaticalExprs arguments ∧
        arguments.length ≤ maxArguments
  | .get object _ => .call ≤ object.level ∧ object.Grammatical
  | .set object _ value => (.call ≤ object.level ∧ object.Grammatical) ∧ value.Grammatical
  | .this _ _ => True
  | .super _ _ _ => True
  | .lambda _ parameters body => parameters.length ≤ maxArguments ∧ grammaticalStmts body

/-- Lists of expressions that the grammar allows. -/
def grammaticalExprs : List (Expr β) → Prop
  | [] => True
  | e :: rest => e.Grammatical ∧ grammaticalExprs rest

/-- Statements that the grammar allows among declarations. -/
def Stmt.Grammatical : Stmt β → Prop
  | .expression value => value.Grammatical
  | .print value => value.Grammatical
  | .var _ none => True
  | .var _ (some value) => value.Grammatical
  | .block body => grammaticalStmts body
  | .ifStmt condition thenBranch elifs elseBranch =>
      condition.Grammatical ∧ (thenBranch.Grammatical ∧ thenBranch.declared = none) ∧
        (thenBranch.endsOpen = true → elifs = [] ∧ elseBranch = none) ∧
        grammaticalElifs elseBranch.isSome elifs ∧ grammaticalElse elseBranch
  | .whileStmt condition body =>
      condition.Grammatical ∧ body.Grammatical ∧ body.declared = none
  | .functionDecl f => f.Grammatical
  | .returnStmt _ none => True
  | .returnStmt _ (some value) => value.Grammatical
  | .breakStmt _ => True
  | .classDecl _ _ methods => grammaticalFunctions methods

/-- Declarations and statements in sequence that the grammar allows. -/
def grammaticalStmts : List (Stmt β) → Prop
  | [] => True
  | s :: rest => s.Grammatical ∧ grammaticalStmts rest

/-- Branches of a choice that the grammar allows, in front of an `else` or not. -/
def grammaticalElifs (beforeElse : Bool) : List (Elif β) → Prop
  | [] => True
  | .mk condition body :: rest =>
      condition.Grammatical ∧ (body.Grammatical ∧ body.declared = none) ∧
        (body.endsOpen = true → rest = [] ∧ beforeElse = false) ∧
        grammaticalElifs beforeElse rest

/-- Last branches of a choice that the grammar allows. -/
def grammaticalElse : Option (Stmt β) → Prop
  | none => True
  | some s => s.Grammatical ∧ s.declared = none

/-- Functions that the grammar allows. -/
def Function.Grammatical : Function β → Prop
  | .mk _ parameters body => parameters.length ≤ maxArguments ∧ grammaticalStmts body

/-- Methods that the grammar allows. -/
def grammaticalFunctions : List (Function β) → Prop
  | [] => True
  | f :: rest => f.Grammatical ∧ grammaticalFunctions rest

end

/-- What the grammar demands of the trees in a phrase. -/
def Phrase.Grammatical : Phrase → Prop
  | .expression l e => l ≤ e.level ∧ e.Grammatical
  | .arguments es => grammaticalExprs es
  | .optional e => ∀ e' ∈ e, e'.Grammatical
  | .condition e => e.Grammatical
  | .variable name e => (Stmt.var name e).Grammatical
  | .initializer start => ∀ s ∈ start, s.Grammatical
  | .statement s isOpen =>
      s.Grammatical ∧ s.declared = none ∧ (s.endsOpen = true → isOpen = true)
  | .elifs branches isOpen =>
      ∀ beforeElse : Bool, (isOpen = true → beforeElse = false) →
        grammaticalElifs beforeElse branches
  | .block body => grammaticalStmts body
  | .code names body => names.length ≤ maxArguments ∧ grammaticalStmts body
  | .function f => f.Grammatical
  | .methods fs => grammaticalFunctions fs
  | .superclass _ => True
  | .declaration s _ => s.Grammatical
  | .declarations body => grammaticalStmts body

theorem BinaryOp.isInfix (op : BinaryOp) : op.level.IsInfix := by
  cases op <;> exact ⟨by decide, by decide⟩

theorem LogicalOp.isInfix (op : LogicalOp) : op.level.IsInfix := by
  cases op <;> exact ⟨by decide, by decide⟩

/-- A loop with clauses is grammatical if its clauses and its body are. -/
theorem Stmt.grammatical_forLoop {start : Option (Stmt Unit)} {c step : Option (Expr Unit)}
    {s : Stmt Unit} {isOpen : Bool} (hstart : ∀ s ∈ start, s.Grammatical)
    (hc : ∀ e ∈ c, e.Grammatical) (hstep : ∀ e ∈ step, e.Grammatical)
    (hs : (Phrase.statement s isOpen).Grammatical) :
    (Phrase.statement (.forLoop start c step s) isOpen).Grammatical := by
  have hcondition : (c.getD (.literal (.boolean true))).Grammatical := by
    cases c with
    | none => trivial
    | some e => exact hc e rfl
  obtain ⟨hs, hdeclared, hopen⟩ := hs
  cases start with
  | none =>
    cases step with
    | none => exact ⟨⟨hcondition, hs, hdeclared⟩, rfl, hopen⟩
    | some step =>
      have hbody : grammaticalStmts [s, .expression step] := ⟨hs, hstep step rfl, trivial⟩
      exact ⟨⟨hcondition, hbody, rfl⟩, rfl, nofun⟩
  | some start =>
    have hstart := hstart start rfl
    cases step with
    | none =>
      have hloop : grammaticalStmts [start, .whileStmt (c.getD (.literal (.boolean true))) s] :=
        ⟨hstart, ⟨hcondition, hs, hdeclared⟩, trivial⟩
      exact ⟨hloop, rfl, nofun⟩
    | some step =>
      have hbody : grammaticalStmts [s, .expression step] := ⟨hs, hstep step rfl, trivial⟩
      have hloop : grammaticalStmts [start,
          .whileStmt (c.getD (.literal (.boolean true))) (.block [s, .expression step])] :=
        ⟨hstart, ⟨hcondition, hbody, rfl⟩, trivial⟩
      exact ⟨hloop, rfl, nofun⟩

/-- Trees that are spelled are grammatical. -/
theorem Spells.grammatical {ts : List Token} {p : Phrase} (h : Spells ts p) : p.Grammatical := by
  induction h with
  | falsity | truth | nil | literal | this | super | «variable» =>
    exact ⟨Level.le_primary _, trivial⟩
  | lambda _ _ ih => exact ⟨Level.le_primary _, ih⟩
  | grouping _ _ _ ih => exact ⟨Level.le_primary _, ih.2⟩
  | call hl _ _ _ hlength _ ih ih' => exact ⟨hl, ih, ih', hlength⟩
  | get hl _ _ _ ih => exact ⟨hl, ih⟩
  | unary hl _ _ ih => exact ⟨hl, ih⟩
  | @binary _ _ _ _ op _ _ hl _ _ _ ih ih' =>
    exact ⟨hl, ih, op.isInfix.lt_tighter.trans_le ih'.1, ih'.2⟩
  | @logical _ _ _ _ op _ _ hl _ _ _ ih ih' =>
    exact ⟨hl, ih, op.isInfix.lt_tighter.trans_le ih'.1, ih'.2⟩
  | assign _ _ _ ih => exact ⟨le_rfl, ih.2⟩
  | set _ _ _ _ _ ih ih' => exact ⟨le_rfl, ih, ih'.2⟩
  | noArguments => trivial
  | lastArgument _ ih => exact ⟨ih.2, trivial⟩
  | arguments _ _ _ ih ih' => exact ⟨ih.2, ih'⟩
  | missing => exact nofun
  | present _ ih => exact fun e he => Option.some.inj he ▸ ih.2
  | condition _ _ _ ih => exact ih.2
  | plainVariable => trivial
  | initializedVariable _ _ _ _ _ ih => exact ih.2
  | noInitializer => exact nofun
  | variableInitializer _ ih => exact fun s hs => Option.some.inj hs ▸ ih
  | expressionInitializer _ _ ih =>
    intro s hs
    cases hs
    exact ih.2
  | expressionStatement _ _ ih => exact ⟨ih.2, rfl, nofun⟩
  | print _ _ _ ih => exact ⟨ih.2, rfl, nofun⟩
  | @returnStmt _ _ _ e _ _ _ ih =>
    cases e with
    | none => exact ⟨trivial, rfl, nofun⟩
    | some e => exact ⟨ih e rfl, rfl, nofun⟩
  | breakStmt => exact ⟨trivial, rfl, nofun⟩
  | whileStmt _ _ _ ih ih' => exact ⟨⟨ih, ih'.1, ih'.2.1⟩, rfl, ih'.2.2⟩
  | forLoop _ _ _ _ _ _ _ _ ih ih' ih'' ih''' => exact Stmt.grammatical_forLoop ih ih' ih'' ih'''
  | ifStmt _ _ _ _ himp ih ih' ih'' =>
    refine ⟨⟨ih, ⟨ih'.1, ih'.2.1⟩, fun hopen => ⟨himp (ih'.2.2 hopen), rfl⟩, ?_, trivial⟩, rfl,
      fun _ => rfl⟩
    exact ih'' false fun _ => rfl
  | ifElse _ _ _ _ _ _ ih ih' ih'' ih''' =>
    refine ⟨⟨ih, ⟨ih'.1, ih'.2.1⟩, fun hopen => ?_, ih'' true nofun, ih'''.1, ih'''.2.1⟩, rfl,
      ih'''.2.2⟩
    cases ih'.2.2 hopen
  | noElifs => exact fun _ _ => trivial
  | elifs _ _ _ _ himp ih ih' ih'' =>
    intro beforeElse hbefore
    refine ⟨ih, ⟨ih'.1, ih'.2.1⟩, fun hopen => ?_, ih'' beforeElse fun h => hbefore (by simp [h])⟩
    exact ⟨himp (ih'.2.2 hopen), hbefore (by simp [ih'.2.2 hopen])⟩
  | blockStatement _ ih => exact ⟨ih, rfl, nofun⟩
  | block _ _ _ ih => exact ih
  | code _ _ hlength _ _ ih => exact ⟨hlength, ih⟩
  | function _ _ ih => exact ih
  | noMethods => trivial
  | methods _ _ ih ih' => exact ⟨ih, ih'⟩
  | noSuperclass | superclass => trivial
  | classDecl _ _ _ _ _ _ _ ih => exact ih
  | functionDecl _ _ ih => exact ih
  | variableDecl _ ih => exact ih
  | statementDecl _ ih => exact ih.1
  | noDeclarations => trivial
  | declarations _ _ ih ih' => exact ⟨ih, ih'⟩

/-- Tokens are read without a mistake just if they spell the program. -/
theorem Parse.ofTokens_eq_iff {tokens : List Token} {program : Program Unit} :
    Parse.ofTokens tokens = ⟨program, []⟩ ↔ Spells tokens (.declarations program) := by
  refine ⟨fun h => ?_, Parse.ofTokens_of_spells⟩
  have hspells := @Parse.spells_of_mistakes tokens (by rw [h])
  rwa [h] at hspells

/-- The tokens of a program that is read without a mistake, all of them and in their
order, spell this program and no other, and the program is grammatical. -/
theorem Parse.derivation {tokens : List Token} (h : (Parse.ofTokens tokens).mistakes = []) :
    (∀ program, Spells tokens (.declarations program) ↔
      program = (Parse.ofTokens tokens).program) ∧
      grammaticalStmts (Parse.ofTokens tokens).program := by
  have hspells := Parse.spells_of_mistakes h
  refine ⟨fun program => ⟨fun hprogram => ?_, ?_⟩, hspells.grammatical⟩
  · rw [Parse.ofTokens_of_spells hprogram]
  · rintro rfl
    exact hspells

/-- A loop with clauses around a choice with an `else`. -/
theorem Parse.derivation_forLoop :
    let tokens := (Scan.ofSource ("for (var i = 0; i < 3; i = i + 1) " ++
      "if (i == 1) print a.b(i); else a.c = fun (x) \x7b\x7d;")).tokens
    (Parse.ofTokens tokens).mistakes = [] ∧
      (∀ program, Spells tokens (.declarations program) ↔
        program = (Parse.ofTokens tokens).program) ∧
        grammaticalStmts (Parse.ofTokens tokens).program := by
  intro tokens
  have h : (Parse.ofTokens tokens).mistakes = [] := by decide +kernel
  exact ⟨h, Parse.derivation h⟩

end ClassScript
