import ClassScript.Diagnostic
import ClassScript.Syntax.Tree
import Mathlib.Data.Nat.Basic
import Mathlib.Order.Lattice

/-!
# Derivations

The grammar of programs, as a relation between tokens and what they spell.
`Spells tokens phrase` says that the tokens, all of them and in their order, are a
derivation of the phrase.  It is stated rule by rule and knows nothing of how a
program is read.

An expression is spelled at a *level*, which is the loosest one that its place
allows.  The left operand of a binary operator stands at the level of the operator
and the right operand one level tighter, so operators of one level are joined from
the left.

An `elif` or an `else` belongs to the nearest choice that can have it.  A statement
is *open* if it ends with a choice that could still take one.  Nothing of the kind
may follow an open statement inside of a choice.
-/

namespace ClassScript

/-! ## Levels -/

/-- How tightly an expression holds together, the loosest first. -/
inductive Level where
  | assignment
  | disjunction
  | conjunction
  | equality
  | comparison
  | term
  | factor
  | unary
  | call
  | primary
deriving DecidableEq, Repr

namespace Level

/-- The position of a level. -/
def rank : Level → Nat
  | assignment => 0
  | disjunction => 1
  | conjunction => 2
  | equality => 3
  | comparison => 4
  | term => 5
  | factor => 6
  | unary => 7
  | call => 8
  | primary => 9

theorem rank_injective : Function.Injective rank := by
  intro a b h
  cases a <;> cases b <;> first | rfl | cases h

instance : LinearOrder Level := LinearOrder.lift' rank rank_injective

theorem le_iff {a b : Level} : a ≤ b ↔ a.rank ≤ b.rank := Iff.rfl

theorem lt_iff {a b : Level} : a < b ↔ a.rank < b.rank := Iff.rfl

/-- The next tighter level, if there is one. -/
def tighter : Level → Level
  | assignment => disjunction
  | disjunction => conjunction
  | conjunction => equality
  | equality => comparison
  | comparison => term
  | term => factor
  | factor => unary
  | unary => call
  | call => primary
  | primary => primary

theorem assignment_le (l : Level) : assignment ≤ l := Nat.zero_le _

theorem le_primary (l : Level) : l ≤ primary := by cases l <;> decide

end Level

/-- The level of a binary operator. -/
def BinaryOp.level : BinaryOp → Level
  | multiply | divide => .factor
  | add | subtract => .term
  | greater | greaterEqual | less | lessEqual => .comparison
  | equal | notEqual => .equality

/-- The level of a logical operator. -/
def LogicalOp.level : LogicalOp → Level
  | and => .conjunction
  | or => .disjunction

/-- The tightest level at which an expression can be spelled. -/
def Expr.level {β : Type} : Expr β → Level
  | .literal _ | .grouping _ | .variable _ | .this _ _ | .super _ _ _ | .lambda _ _ _ => .primary
  | .call _ _ _ | .get _ _ => .call
  | .unary _ _ _ => .unary
  | .binary _ op _ _ => op.level
  | .logical _ op _ _ => op.level
  | .assign _ _ | .set _ _ _ => .assignment

/-! ## Lists -/

/-- The name that a token stands for. -/
def Token.name (t : Token) : Name := ⟨t.text, t.line⟩

/-- Tokens that are items with commas between them. -/
inductive Separated {α : Type} (Item : List Token → α → Prop) : List Token → List α → Prop where
  | nil : Separated Item [] []
  | single {ts : List Token} {a : α} : Item ts a → Separated Item ts [a]
  | cons {ts us : List Token} {comma : Token} {a b : α} {rest : List α} :
      Item ts a → comma.kind = .comma → Separated Item us (b :: rest) →
      Separated Item (ts ++ comma :: us) (a :: b :: rest)

/-- A token that is a name. -/
def Token.Names (ts : List Token) (name : Name) : Prop :=
  ∃ t : Token, t.kind = .identifier ∧ ts = [t] ∧ name = t.name

/-! ## The grammar -/

/-- What a stretch of tokens spells. -/
inductive Phrase where
  /-- An expression in a place that allows the given level. -/
  | expression (level : Level) (e : Expr Unit)
  /-- The arguments of a call, without the parentheses. -/
  | arguments (es : List (Expr Unit))
  /-- An expression that may be missing. -/
  | optional (e : Option (Expr Unit))
  /-- An expression in parentheses, as a condition. -/
  | condition (e : Expr Unit)
  /-- The declaration of a variable. -/
  | variable (name : Name) (initializer : Option (Expr Unit))
  /-- The first clause of a `for` loop with its semicolon. -/
  | initializer (start : Option (Stmt Unit))
  /-- A statement that is no declaration.  Whether it is open. -/
  | statement (s : Stmt Unit) (isOpen : Bool)
  /-- The `elif` branches of a choice.  Whether the last of them is open. -/
  | elifs (branches : List (Elif Unit)) (isOpen : Bool)
  /-- Statements in braces. -/
  | block (body : List (Stmt Unit))
  /-- The parameters and the body of a function. -/
  | code (parameters : List Name) (body : List (Stmt Unit))
  /-- A function or method from its name on. -/
  | function (f : Function Unit)
  /-- The methods of a class. -/
  | methods (fs : List (Function Unit))
  /-- The superclass of a class, if it has one. -/
  | superclass (parent : Option (Reference Unit))
  /-- A declaration or statement.  Whether it is open. -/
  | declaration (s : Stmt Unit) (isOpen : Bool)
  /-- Declarations and statements in sequence. -/
  | declarations (body : List (Stmt Unit))

/-- The derivations of the grammar. -/
inductive Spells : List Token → Phrase → Prop where
  -- Expressions.
  | falsity {t : Token} {level : Level} : t.kind = .falseKw →
      Spells [t] (.expression level (.literal (.boolean false)))
  | truth {t : Token} {level : Level} : t.kind = .trueKw →
      Spells [t] (.expression level (.literal (.boolean true)))
  | nil {t : Token} {level : Level} : t.kind = .nilKw →
      Spells [t] (.expression level (.literal .nil))
  | literal {t : Token} {level : Level} : t.kind = .number ∨ t.kind = .string →
      Spells [t] (.expression level (.literal (t.literal.getD .nil)))
  | this {t : Token} {level : Level} : t.kind = .thisKw →
      Spells [t] (.expression level (.this t.line ()))
  | super {t dot method : Token} {level : Level} : t.kind = .superKw → dot.kind = .dot →
      method.kind = .identifier →
      Spells [t, dot, method] (.expression level (.super t.line method.name ()))
  | variable {t : Token} {level : Level} : t.kind = .identifier →
      Spells [t] (.expression level (.variable ⟨t.name, ()⟩))
  | lambda {t : Token} {ts : List Token} {level : Level} {names : List Name}
      {body : List (Stmt Unit)} : t.kind = .funKw → Spells ts (.code names body) →
      Spells (t :: ts) (.expression level (.lambda t.line names body))
  | grouping {opening closing : Token} {ts : List Token} {level : Level} {e : Expr Unit} :
      opening.kind = .leftParen → Spells ts (.expression .assignment e) →
      closing.kind = .rightParen →
      Spells (opening :: (ts ++ [closing])) (.expression level (.grouping e))
  | call {ts us : List Token} {opening closing : Token} {level : Level} {f : Expr Unit}
      {es : List (Expr Unit)} : level ≤ .call → Spells ts (.expression .call f) →
      opening.kind = .leftParen → Spells us (.arguments es) → es.length ≤ maxArguments →
      closing.kind = .rightParen →
      Spells (ts ++ opening :: (us ++ [closing])) (.expression level (.call f closing.line es))
  | get {ts : List Token} {dot name : Token} {level : Level} {e : Expr Unit} : level ≤ .call →
      Spells ts (.expression .call e) → dot.kind = .dot → name.kind = .identifier →
      Spells (ts ++ [dot, name]) (.expression level (.get e name.name))
  | unary {t : Token} {ts : List Token} {level : Level} {op : UnaryOp} {e : Expr Unit} :
      level ≤ .unary → t.kind = op.token → Spells ts (.expression .unary e) →
      Spells (t :: ts) (.expression level (.unary op t.line e))
  | binary {t : Token} {ts us : List Token} {level : Level} {op : BinaryOp} {a b : Expr Unit} :
      level ≤ op.level → Spells ts (.expression op.level a) → t.kind = op.token →
      Spells us (.expression op.level.tighter b) →
      Spells (ts ++ t :: us) (.expression level (.binary a op t.line b))
  | logical {t : Token} {ts us : List Token} {level : Level} {op : LogicalOp} {a b : Expr Unit} :
      level ≤ op.level → Spells ts (.expression op.level a) → t.kind = op.token →
      Spells us (.expression op.level.tighter b) →
      Spells (ts ++ t :: us) (.expression level (.logical a op t.line b))
  | assign {t equal : Token} {ts : List Token} {e : Expr Unit} : t.kind = .identifier →
      equal.kind = .equal → Spells ts (.expression .assignment e) →
      Spells (t :: equal :: ts) (.expression .assignment (.assign ⟨t.name, ()⟩ e))
  | set {ts us : List Token} {dot name equal : Token} {object value : Expr Unit} :
      Spells ts (.expression .call object) → dot.kind = .dot → name.kind = .identifier →
      equal.kind = .equal → Spells us (.expression .assignment value) →
      Spells (ts ++ dot :: name :: equal :: us)
        (.expression .assignment (.set object name.name value))
  -- Parts of expressions and statements.
  | noArguments : Spells [] (.arguments [])
  | lastArgument {ts : List Token} {e : Expr Unit} : Spells ts (.expression .assignment e) →
      Spells ts (.arguments [e])
  | arguments {ts us : List Token} {comma : Token} {e e' : Expr Unit} {es : List (Expr Unit)} :
      Spells ts (.expression .assignment e) → comma.kind = .comma →
      Spells us (.arguments (e' :: es)) → Spells (ts ++ comma :: us) (.arguments (e :: e' :: es))
  | missing : Spells [] (.optional none)
  | present {ts : List Token} {e : Expr Unit} : Spells ts (.expression .assignment e) →
      Spells ts (.optional (some e))
  | condition {opening closing : Token} {ts : List Token} {e : Expr Unit} :
      opening.kind = .leftParen → Spells ts (.expression .assignment e) →
      closing.kind = .rightParen → Spells (opening :: (ts ++ [closing])) (.condition e)
  | plainVariable {word name semicolon : Token} : word.kind = .varKw → name.kind = .identifier →
      semicolon.kind = .semicolon → Spells [word, name, semicolon] (.variable name.name none)
  | initializedVariable {word name equal semicolon : Token} {ts : List Token} {e : Expr Unit} :
      word.kind = .varKw → name.kind = .identifier → equal.kind = .equal →
      Spells ts (.expression .assignment e) → semicolon.kind = .semicolon →
      Spells (word :: name :: equal :: (ts ++ [semicolon])) (.variable name.name (some e))
  | noInitializer {semicolon : Token} : semicolon.kind = .semicolon →
      Spells [semicolon] (.initializer none)
  | variableInitializer {ts : List Token} {name : Name} {e : Option (Expr Unit)} :
      Spells ts (.variable name e) → Spells ts (.initializer (some (.var name e)))
  | expressionInitializer {ts : List Token} {semicolon : Token} {e : Expr Unit} :
      Spells ts (.expression .assignment e) → semicolon.kind = .semicolon →
      Spells (ts ++ [semicolon]) (.initializer (some (.expression e)))
  -- Statements.
  | expressionStatement {ts : List Token} {semicolon : Token} {e : Expr Unit} :
      Spells ts (.expression .assignment e) → semicolon.kind = .semicolon →
      Spells (ts ++ [semicolon]) (.statement (.expression e) false)
  | print {word semicolon : Token} {ts : List Token} {e : Expr Unit} : word.kind = .printKw →
      Spells ts (.expression .assignment e) → semicolon.kind = .semicolon →
      Spells (word :: (ts ++ [semicolon])) (.statement (.print e) false)
  | returnStmt {word semicolon : Token} {ts : List Token} {e : Option (Expr Unit)} :
      word.kind = .returnKw → Spells ts (.optional e) → semicolon.kind = .semicolon →
      Spells (word :: (ts ++ [semicolon])) (.statement (.returnStmt word.line e) false)
  | breakStmt {word semicolon : Token} : word.kind = .breakKw → semicolon.kind = .semicolon →
      Spells [word, semicolon] (.statement (.breakStmt word.line) false)
  | whileStmt {word : Token} {ts us : List Token} {c : Expr Unit} {s : Stmt Unit}
      {isOpen : Bool} : word.kind = .whileKw → Spells ts (.condition c) →
      Spells us (.statement s isOpen) →
      Spells (word :: (ts ++ us)) (.statement (.whileStmt c s) isOpen)
  | forLoop {word opening semicolon closing : Token} {ts us vs ws : List Token}
      {start : Option (Stmt Unit)} {c step : Option (Expr Unit)} {s : Stmt Unit}
      {isOpen : Bool} : word.kind = .forKw → opening.kind = .leftParen →
      Spells ts (.initializer start) → Spells us (.optional c) → semicolon.kind = .semicolon →
      Spells vs (.optional step) → closing.kind = .rightParen → Spells ws (.statement s isOpen) →
      Spells (word :: opening :: (ts ++ us ++ semicolon :: (vs ++ closing :: ws)))
        (.statement (.forLoop start c step s) isOpen)
  | ifStmt {word : Token} {ts us vs : List Token} {c : Expr Unit} {s : Stmt Unit}
      {branches : List (Elif Unit)} {isOpen lastOpen : Bool} : word.kind = .ifKw →
      Spells ts (.condition c) → Spells us (.statement s isOpen) →
      Spells vs (.elifs branches lastOpen) → (isOpen = true → branches = []) →
      Spells (word :: (ts ++ us ++ vs)) (.statement (.ifStmt c s branches none) true)
  | ifElse {word otherwise : Token} {ts us vs ws : List Token} {c : Expr Unit}
      {s s' : Stmt Unit} {branches : List (Elif Unit)} {isOpen : Bool} : word.kind = .ifKw →
      Spells ts (.condition c) → Spells us (.statement s false) →
      Spells vs (.elifs branches false) → otherwise.kind = .elseKw →
      Spells ws (.statement s' isOpen) →
      Spells (word :: (ts ++ us ++ vs ++ otherwise :: ws))
        (.statement (.ifStmt c s branches (some s')) isOpen)
  | noElifs : Spells [] (.elifs [] false)
  | elifs {word : Token} {ts us vs : List Token} {c : Expr Unit} {s : Stmt Unit}
      {branches : List (Elif Unit)} {isOpen lastOpen : Bool} : word.kind = .elifKw →
      Spells ts (.condition c) → Spells us (.statement s isOpen) →
      Spells vs (.elifs branches lastOpen) → (isOpen = true → branches = []) →
      Spells (word :: (ts ++ us ++ vs)) (.elifs (.mk c s :: branches) (isOpen || lastOpen))
  | blockStatement {ts : List Token} {body : List (Stmt Unit)} : Spells ts (.block body) →
      Spells ts (.statement (.block body) false)
  | block {opening closing : Token} {ts : List Token} {body : List (Stmt Unit)} :
      opening.kind = .leftBrace → Spells ts (.declarations body) → closing.kind = .rightBrace →
      Spells (opening :: (ts ++ [closing])) (.block body)
  -- Declarations.
  | code {opening closing : Token} {ts us : List Token} {names : List Name}
      {body : List (Stmt Unit)} : opening.kind = .leftParen → Separated Token.Names ts names →
      names.length ≤ maxArguments → closing.kind = .rightParen → Spells us (.block body) →
      Spells (opening :: (ts ++ closing :: us)) (.code names body)
  | function {name : Token} {ts : List Token} {names : List Name} {body : List (Stmt Unit)} :
      name.kind = .identifier → Spells ts (.code names body) →
      Spells (name :: ts) (.function (.mk name.name names body))
  | noMethods : Spells [] (.methods [])
  | methods {ts us : List Token} {f : Function Unit} {fs : List (Function Unit)} :
      Spells ts (.function f) → Spells us (.methods fs) → Spells (ts ++ us) (.methods (f :: fs))
  | noSuperclass : Spells [] (.superclass none)
  | superclass {less name : Token} : less.kind = .less → name.kind = .identifier →
      Spells [less, name] (.superclass (some ⟨name.name, ()⟩))
  | classDecl {word name opening closing : Token} {ts us : List Token}
      {parent : Option (Reference Unit)} {fs : List (Function Unit)} : word.kind = .classKw →
      name.kind = .identifier → Spells ts (.superclass parent) → opening.kind = .leftBrace →
      Spells us (.methods fs) → closing.kind = .rightBrace →
      Spells (word :: name :: (ts ++ opening :: (us ++ [closing])))
        (.declaration (.classDecl name.name parent fs) false)
  | functionDecl {word : Token} {ts : List Token} {f : Function Unit} : word.kind = .funKw →
      Spells ts (.function f) → Spells (word :: ts) (.declaration (.functionDecl f) false)
  | variableDecl {ts : List Token} {name : Name} {e : Option (Expr Unit)} :
      Spells ts (.variable name e) → Spells ts (.declaration (.var name e) false)
  | statementDecl {ts : List Token} {s : Stmt Unit} {isOpen : Bool} :
      Spells ts (.statement s isOpen) → Spells ts (.declaration s isOpen)
  | noDeclarations : Spells [] (.declarations [])
  | declarations {ts us : List Token} {s : Stmt Unit} {isOpen : Bool} {body : List (Stmt Unit)} :
      Spells ts (.declaration s isOpen) → Spells us (.declarations body) →
      Spells (ts ++ us) (.declarations (s :: body))

end ClassScript
