import ClassScript.Proofs.Chains.Tree
import ClassScript.Proofs.Syntax.Grammatical

/-!
# Reading chains of choices

Tokens with `else if` in the place of every `elif` spell the tree without `elif` branches
(`Spells.nests`), so they are read as that tree without a mistake
(`Parse.ofTokens_elseIfs`).

The induction is on derivations.  Further branches are no phrase of the new tokens: together
with what follows them they spell the last branch of a choice (`SpellsLast`).  A branch that
is open stands at the end of its chain, so no `else` is put behind an open statement.
-/

namespace ClassScript

/-- Tokens that spell the last branch of a choice, which may be missing.  Whether the choice is
open. -/
inductive SpellsLast : List Token → Option (Stmt Unit) → Bool → Prop where
  | none : SpellsLast [] none true
  | some {otherwise : Token} {ts : List Token} {s : Stmt Unit} {isOpen : Bool} :
      otherwise.kind = .elseKw → Spells ts (.statement s isOpen) →
      SpellsLast (otherwise :: ts) (some s) isOpen

/-- A choice without further branches. -/
theorem Spells.choice {word : Token} {ts us vs : List Token} {c : Expr Unit} {s : Stmt Unit}
    {last : Option (Stmt Unit)} {isOpen lastOpen : Bool} (hword : word.kind = .ifKw)
    (hc : Spells ts (.condition c)) (hs : Spells us (.statement s isOpen))
    (hlast : SpellsLast vs last lastOpen) (hopen : isOpen = true → last = none) :
    Spells (word :: (ts ++ us ++ vs)) (.statement (.ifStmt c s [] last) lastOpen) := by
  cases hlast with
  | none => exact .ifStmt hword hc hs .noElifs fun _ => rfl
  | some hotherwise hs' =>
    obtain rfl : isOpen = false := by
      cases isOpen with
      | false => rfl
      | true => cases hopen rfl
    have hchoice := Spells.ifElse hword hc hs .noElifs hotherwise hs'
    rwa [List.append_nil] at hchoice

/-- The tokens spell the phrase without `elif` branches.  Further branches and what follows them
are spelled as the last branch of a choice. -/
def Phrase.Nests (ts : List Token) : Phrase → Prop
  | expression level e => Spells ts (.expression level e.nest)
  | arguments es => Spells ts (.arguments (nestExprs es))
  | optional e => Spells ts (.optional (e.map Expr.nest))
  | condition e => Spells ts (.condition e.nest)
  | «variable» name value => Spells ts (.variable name (value.map Expr.nest))
  | initializer start => Spells ts (.initializer (start.map Stmt.nest))
  | statement s isOpen => Spells ts (.statement s.nest isOpen)
  | elifs branches isOpen => ∀ (us : List Token) (last : Option (Stmt Unit)) (lastOpen : Bool),
      SpellsLast us last lastOpen → (isOpen = true → last = none) →
      SpellsLast (ts ++ us) (nestChain branches last) lastOpen
  | block body => Spells ts (.block (nestStmts body))
  | code parameters body => Spells ts (.code parameters (nestStmts body))
  | function f => Spells ts (.function f.nest)
  | methods fs => Spells ts (.methods (nestFunctions fs))
  | superclass parent => Spells ts (.superclass parent)
  | declaration s isOpen => Spells ts (.declaration s.nest isOpen)
  | declarations body => Spells ts (.declarations (nestStmts body))

theorem UnaryOp.token_ne_elif (op : UnaryOp) : op.token ≠ .elifKw := by cases op <;> decide

theorem BinaryOp.token_ne_elif (op : BinaryOp) : op.token ≠ .elifKw := by cases op <;> decide

theorem LogicalOp.token_ne_elif (op : LogicalOp) : op.token ≠ .elifKw := by cases op <;> decide

/-- There is no `elif` among parameters. -/
theorem Separated.elseIfs_eq {ts : List Token} {names : List Name}
    (h : Separated Token.Names ts names) : elseIfs ts = ts := by
  have hname : ∀ {ts : List Token} {name : Name}, Token.Names ts name → elseIfs ts = ts := by
    rintro ts name ⟨t, hk, rfl, rfl⟩
    exact elseIfs_keep hk nofun []
  induction h with
  | nil => rfl
  | single hitem => exact hname hitem
  | cons hitem hcomma _ ih => rw [elseIfs_append, hname hitem, elseIfs_keep hcomma nofun, ih]

/-- Tokens with `else if` in the place of `elif` spell the phrase without `elif` branches. -/
theorem Spells.nests {ts : List Token} {phrase : Phrase} (h : Spells ts phrase) :
    phrase.Nests (elseIfs ts) := by
  induction h with
  | falsity hk =>
    rw [elseIfs_keep hk nofun]
    exact .falsity hk
  | truth hk =>
    rw [elseIfs_keep hk nofun]
    exact .truth hk
  | nil hk =>
    rw [elseIfs_keep hk nofun]
    exact .nil hk
  | literal hk =>
    obtain hk' | hk' := hk <;> rw [elseIfs_keep hk' nofun]
    · exact .literal (.inl hk')
    · exact .literal (.inr hk')
  | this hk =>
    rw [elseIfs_keep hk nofun]
    exact .this hk
  | super hk hdot hmethod =>
    rw [elseIfs_keep hk nofun, elseIfs_keep hdot nofun, elseIfs_keep hmethod nofun]
    exact .super hk hdot hmethod
  | «variable» hk =>
    rw [elseIfs_keep hk nofun]
    exact .variable hk
  | lambda hk _ ih =>
    rw [elseIfs_keep hk nofun]
    exact .lambda hk ih
  | grouping hopening _ hclosing ih =>
    rw [elseIfs_keep hopening nofun, elseIfs_append, elseIfs_keep hclosing nofun]
    exact .grouping hopening ih hclosing
  | call hlevel _ hopening _ hlength hclosing ih ih' =>
    rw [elseIfs_append, elseIfs_keep hopening nofun, elseIfs_append, elseIfs_keep hclosing nofun]
    rw [← length_nestExprs] at hlength
    exact .call hlevel ih hopening ih' hlength hclosing
  | get hlevel _ hdot hname ih =>
    rw [elseIfs_append, elseIfs_keep hdot nofun, elseIfs_keep hname nofun]
    exact .get hlevel ih hdot hname
  | @unary _ _ _ op _ hlevel hk _ ih =>
    rw [elseIfs_keep hk op.token_ne_elif]
    exact .unary hlevel hk ih
  | @binary _ _ _ _ op _ _ hlevel _ hk _ ih ih' =>
    rw [elseIfs_append, elseIfs_keep hk op.token_ne_elif]
    exact .binary hlevel ih hk ih'
  | @logical _ _ _ _ op _ _ hlevel _ hk _ ih ih' =>
    rw [elseIfs_append, elseIfs_keep hk op.token_ne_elif]
    exact .logical hlevel ih hk ih'
  | assign hk hequal _ ih =>
    rw [elseIfs_keep hk nofun, elseIfs_keep hequal nofun]
    exact .assign hk hequal ih
  | set _ hdot hname hequal _ ih ih' =>
    rw [elseIfs_append, elseIfs_keep hdot nofun, elseIfs_keep hname nofun,
      elseIfs_keep hequal nofun]
    exact .set ih hdot hname hequal ih'
  | noArguments => exact .noArguments
  | lastArgument _ ih => exact .lastArgument ih
  | arguments _ hcomma _ ih ih' =>
    rw [elseIfs_append, elseIfs_keep hcomma nofun]
    exact .arguments ih hcomma ih'
  | missing => exact .missing
  | present _ ih => exact .present ih
  | condition hopening _ hclosing ih =>
    rw [elseIfs_keep hopening nofun, elseIfs_append, elseIfs_keep hclosing nofun]
    exact .condition hopening ih hclosing
  | plainVariable hword hname hsemicolon =>
    rw [elseIfs_keep hword nofun, elseIfs_keep hname nofun, elseIfs_keep hsemicolon nofun]
    exact .plainVariable hword hname hsemicolon
  | initializedVariable hword hname hequal _ hsemicolon ih =>
    rw [elseIfs_keep hword nofun, elseIfs_keep hname nofun, elseIfs_keep hequal nofun,
      elseIfs_append, elseIfs_keep hsemicolon nofun]
    exact .initializedVariable hword hname hequal ih hsemicolon
  | noInitializer hsemicolon =>
    rw [elseIfs_keep hsemicolon nofun]
    exact .noInitializer hsemicolon
  | variableInitializer _ ih =>
    rw [Phrase.Nests, Option.map_some, Stmt.nest_var]
    exact .variableInitializer ih
  | expressionInitializer _ hsemicolon ih =>
    rw [elseIfs_append, elseIfs_keep hsemicolon nofun]
    exact .expressionInitializer ih hsemicolon
  | expressionStatement _ hsemicolon ih =>
    rw [elseIfs_append, elseIfs_keep hsemicolon nofun]
    exact .expressionStatement ih hsemicolon
  | print hword _ hsemicolon ih =>
    rw [elseIfs_keep hword nofun, elseIfs_append, elseIfs_keep hsemicolon nofun]
    exact .print hword ih hsemicolon
  | returnStmt hword _ hsemicolon ih =>
    rw [elseIfs_keep hword nofun, elseIfs_append, elseIfs_keep hsemicolon nofun]
    rw [Phrase.Nests, Stmt.nest_returnStmt]
    exact .returnStmt hword ih hsemicolon
  | breakStmt hword hsemicolon =>
    rw [elseIfs_keep hword nofun, elseIfs_keep hsemicolon nofun]
    exact .breakStmt hword hsemicolon
  | whileStmt hword _ _ ih ih' =>
    rw [elseIfs_keep hword nofun, elseIfs_append]
    exact .whileStmt hword ih ih'
  | forLoop hword hopening _ _ hsemicolon _ hclosing _ ih ih' ih'' ih''' =>
    rw [elseIfs_keep hword nofun, elseIfs_keep hopening nofun, elseIfs_append, elseIfs_append,
      elseIfs_keep hsemicolon nofun, elseIfs_append, elseIfs_keep hclosing nofun]
    rw [Phrase.Nests, Stmt.nest_forLoop]
    exact .forLoop hword hopening ih ih' hsemicolon ih'' hclosing ih'''
  | ifStmt hword _ _ _ himp ih ih' ih'' =>
    have hlast := ih'' [] none true .none fun _ => rfl
    rw [elseIfs_keep hword nofun, elseIfs_append, elseIfs_append]
    rw [List.append_nil] at hlast
    exact .choice hword ih ih' hlast fun hopen => by rw [himp hopen]; rfl
  | ifElse hword _ _ _ hotherwise _ ih ih' ih'' ih''' =>
    have hlast := ih'' _ _ _ (.some hotherwise ih''') nofun
    rw [elseIfs_keep hword nofun, elseIfs_append, elseIfs_append, elseIfs_append,
      elseIfs_keep hotherwise nofun, List.append_assoc]
    exact .choice hword ih ih' hlast nofun
  | noElifs => exact fun _ _ _ hlast _ => hlast
  | @elifs word ts us vs _ _ _ _ _ hword _ _ _ himp ih ih' ih'' =>
    intro ws last lastOpen hlast hopen
    have hif : (⟨.ifKw, "if", none, word.line⟩ : Token).kind = .ifKw := rfl
    have helse : (⟨.elseKw, "else", none, word.line⟩ : Token).kind = .elseKw := rfl
    have hmore := ih'' ws last lastOpen hlast fun h => hopen (Bool.or_eq_true_iff.mpr (.inr h))
    have hchoice := Spells.choice hif ih ih' hmore fun h => by
      rw [himp h]
      exact hopen (Bool.or_eq_true_iff.mpr (.inl h))
    rw [elseIfs_cons, Token.elseIf, if_pos hword, elseIfs_append, elseIfs_append]
    rw [← List.append_assoc] at hchoice
    exact .some helse hchoice
  | blockStatement _ ih => exact .blockStatement ih
  | block hopening _ hclosing ih =>
    rw [elseIfs_keep hopening nofun, elseIfs_append, elseIfs_keep hclosing nofun]
    exact .block hopening ih hclosing
  | code hopening hnames hlength hclosing _ ih =>
    rw [elseIfs_keep hopening nofun, elseIfs_append, hnames.elseIfs_eq,
      elseIfs_keep hclosing nofun]
    exact .code hopening hnames hlength hclosing ih
  | function hname _ ih =>
    rw [elseIfs_keep hname nofun]
    exact .function hname ih
  | noMethods => exact .noMethods
  | methods _ _ ih ih' =>
    rw [elseIfs_append]
    exact .methods ih ih'
  | noSuperclass => exact .noSuperclass
  | superclass hless hname =>
    rw [elseIfs_keep hless nofun, elseIfs_keep hname nofun]
    exact .superclass hless hname
  | classDecl hword hname _ hopening _ hclosing ih ih' =>
    rw [elseIfs_keep hword nofun, elseIfs_keep hname nofun, elseIfs_append,
      elseIfs_keep hopening nofun, elseIfs_append, elseIfs_keep hclosing nofun]
    exact .classDecl hword hname ih hopening ih' hclosing
  | functionDecl hword _ ih =>
    rw [elseIfs_keep hword nofun]
    exact .functionDecl hword ih
  | variableDecl _ ih =>
    rw [Phrase.Nests, Stmt.nest_var]
    exact .variableDecl ih
  | statementDecl _ ih => exact .statementDecl ih
  | noDeclarations => exact .noDeclarations
  | declarations _ _ ih ih' =>
    rw [elseIfs_append]
    exact .declarations ih ih'

/-- A program that is read without a mistake is read so with `else if` in the place of every
`elif`, without `elif` branches. -/
theorem Parse.ofTokens_elseIfs {tokens : List Token} (h : (Parse.ofTokens tokens).mistakes = []) :
    Parse.ofTokens (elseIfs tokens) = ⟨nestStmts (Parse.ofTokens tokens).program, []⟩ :=
  Parse.ofTokens_of_spells (Parse.spells_of_mistakes h).nests

end ClassScript
