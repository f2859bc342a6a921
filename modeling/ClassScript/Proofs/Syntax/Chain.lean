import ClassScript.Proofs.Syntax.Derivation

/-!
# Chains of operators

A reader of tokens sees an expression from its left.  First comes an operand of a
tighter level, and then step by step an operator with its right operand, or a call
or property.  Every derivation at such a level can be taken apart in this order
(`Spells.chain`, `Spells.suffixes`) and put together again (`Continued.spells`).

The first token of a phrase says what kind of phrase it may be (`Spells.starts`), and
a level *stops* before a token that cannot go on with an expression of that level.
-/

namespace ClassScript

/-! ## First tokens -/

/-- The tokens that an expression without operators before it starts with. -/
def TokenKind.startsOperand : TokenKind → Bool
  | .falseKw | .trueKw | .nilKw | .number | .string | .thisKw | .superKw | .identifier
  | .funKw | .leftParen => true
  | _ => false

/-- The words that a statement starts with if it is no expression. -/
def TokenKind.startsStatement : TokenKind → Bool
  | .forKw | .ifKw | .printKw | .returnKw | .breakKw | .whileKw | .leftBrace => true
  | _ => false

/-- The tokens that may stand before an operand. -/
def TokenKind.isUnary (k : TokenKind) : Prop := ∃ op : UnaryOp, k = op.token

/-- Tokens that start like an expression in a place of the given level.  Behind `fun`
comes a parenthesis. -/
def StartsExpression (l : Level) (ts : List Token) : Prop :=
  ∃ t us, ts = t :: us ∧ (t.kind.startsOperand = true ∨ l ≤ .unary ∧ t.kind.isUnary) ∧
    (t.kind = .funKw → ∃ u vs, us = u :: vs ∧ u.kind = .leftParen)

/-- Tokens that start like a statement. -/
def StartsStatement (ts : List Token) : Prop :=
  (∃ t us, ts = t :: us ∧ t.kind.startsStatement = true) ∨ StartsExpression .assignment ts

/-- Tokens that start like a declaration or statement, and so neither end a block nor
go on with a choice. -/
def StartsDeclaration (ts : List Token) : Prop :=
  ∃ t us, ts = t :: us ∧ t.kind ≠ .rightBrace ∧ t.kind ≠ .elifKw ∧ t.kind ≠ .elseKw

/-- An operand of one token starts with it. -/
theorem StartsExpression.single {l : Level} {t : Token} (h : t.kind.startsOperand = true)
    (hf : t.kind ≠ .funKw) : StartsExpression l [t] :=
  ⟨t, [], rfl, .inl h, fun he => absurd he hf⟩

/-- What follows does not change how an expression starts. -/
theorem StartsExpression.append {l : Level} {ts : List Token} (h : StartsExpression l ts)
    (us : List Token) : StartsExpression l (ts ++ us) := by
  obtain ⟨t, rest, rfl, hk, hf⟩ := h
  refine ⟨t, rest ++ us, rfl, hk, fun he => ?_⟩
  obtain ⟨u, vs, rfl, hu⟩ := hf he
  exact ⟨u, vs ++ us, rfl, hu⟩

theorem StartsExpression.loosen {l l' : Level} (hl : l ≤ l') {ts : List Token}
    (h : StartsExpression l' ts) : StartsExpression l ts := by
  obtain ⟨t, rest, rfl, hk, hf⟩ := h
  exact ⟨t, rest, rfl, hk.imp_right fun h => ⟨hl.trans h.1, h.2⟩, hf⟩

theorem StartsExpression.declaration {l : Level} {ts : List Token}
    (h : StartsExpression l ts) : StartsDeclaration ts := by
  obtain ⟨t, rest, rfl, hk, -⟩ := h
  refine ⟨t, rest, rfl, ?_⟩
  rcases hk with hk | ⟨-, op, hk⟩
  · refine ⟨?_, ?_, ?_⟩ <;> intro he <;> rw [he] at hk <;> cases hk
  · rw [hk]
    cases op <;> decide

theorem StartsStatement.declaration {ts : List Token} (h : StartsStatement ts) :
    StartsDeclaration ts := by
  rcases h with ⟨t, rest, rfl, hk⟩ | h
  · refine ⟨t, rest, rfl, ?_, ?_, ?_⟩ <;> intro he <;> rw [he] at hk <;> cases hk
  · exact h.declaration

/-- How the tokens of a phrase start. -/
def Phrase.Starts (ts : List Token) : Phrase → Prop
  | .expression l _ => StartsExpression l ts
  | .statement _ _ => StartsStatement ts
  | .declaration _ _ => StartsDeclaration ts
  | _ => True

/-- Every spelling of a phrase starts as the phrase does. -/
theorem Spells.starts {ts : List Token} {p : Phrase} (h : Spells ts p) : p.Starts ts := by
  induction h with
  | falsity ht | truth ht | nil ht | this ht | «variable» ht =>
    exact .single (by rw [ht]; rfl) (by rw [ht]; decide)
  | literal ht => rcases ht with ht | ht <;> exact .single (by rw [ht]; rfl) (by rw [ht]; decide)
  | super ht => exact ⟨_, _, rfl, .inl (by rw [ht]; rfl), fun he => by rw [ht] at he; cases he⟩
  | lambda ht hcode =>
    cases hcode with
    | code hopening => exact ⟨_, _, rfl, .inl (by rw [ht]; rfl), fun _ => ⟨_, _, rfl, hopening⟩⟩
  | grouping ht => exact ⟨_, _, rfl, .inl (by rw [ht]; rfl), fun he => by rw [ht] at he; cases he⟩
  | call hl _ _ _ _ _ ih | get hl _ _ _ ih => exact (StartsExpression.loosen hl ih).append _
  | @unary t ts level op e hl ht _ _ =>
    refine ⟨t, ts, rfl, .inr ⟨hl, op, ht⟩, fun he => ?_⟩
    rw [ht] at he
    cases op <;> cases he
  | binary hl _ _ _ ih | logical hl _ _ _ ih => exact (StartsExpression.loosen hl ih).append _
  | assign ht => exact ⟨_, _, rfl, .inl (by rw [ht]; rfl), fun he => by rw [ht] at he; cases he⟩
  | set _ _ _ _ _ ih => exact (StartsExpression.loosen (Level.assignment_le _) ih).append _
  | expressionStatement _ _ ih => exact .inr (ih.append _)
  | print ht | returnStmt ht | breakStmt ht | whileStmt ht | forLoop ht | ifStmt ht | ifElse ht =>
    exact .inl ⟨_, _, rfl, by rw [ht]; rfl⟩
  | blockStatement hblock =>
    cases hblock with
    | block ht => exact .inl ⟨_, _, rfl, by rw [ht]; rfl⟩
  | classDecl ht | functionDecl ht => exact ⟨_, _, rfl, by rw [ht]; decide⟩
  | variableDecl hvariable =>
    cases hvariable with
    | plainVariable ht => exact ⟨_, _, rfl, by rw [ht]; decide⟩
    | initializedVariable ht => exact ⟨_, _, rfl, by rw [ht]; decide⟩
  | statementDecl _ ih => exact StartsStatement.declaration ih
  | _ => trivial

/-- The tokens that an expression in a list or clause ends before. -/
def TokenKind.closes : TokenKind → Bool
  | .rightParen | .comma | .semicolon => true
  | _ => false

/-- The tokens that an expression starts with. -/
def TokenKind.startsExpression (k : TokenKind) : Bool :=
  k.startsOperand || (UnaryOp.ofToken? k).isSome

/-- The first token of an expression tells that it is one. -/
theorem StartsExpression.head {l : Level} {ts : List Token} (h : StartsExpression l ts) :
    ∃ t us, ts = t :: us ∧ t.kind.startsExpression = true := by
  obtain ⟨t, us, rfl, hk, -⟩ := h
  refine ⟨t, us, rfl, ?_⟩
  rcases hk with hk | ⟨-, op, hk⟩
  · simp [TokenKind.startsExpression, hk]
  · simp [TokenKind.startsExpression, hk, UnaryOp.ofToken?_token]

theorem TokenKind.ne_of_startsExpression {k k' : TokenKind} (h : k.startsExpression = true)
    (hk : k'.startsExpression = false) : k ≠ k' := by
  rintro rfl
  rw [h] at hk
  cases hk

/-- A bracket that closes starts no expression. -/
theorem TokenKind.startsExpression_of_closes {k : TokenKind} (h : k.closes = true) :
    k.startsExpression = false := by
  cases k <;> first | rfl | cases h

/-- No token starts both an expression and another statement. -/
theorem TokenKind.startsStatement_of_startsExpression {k : TokenKind}
    (h : k.startsExpression = true) : k.startsStatement = false := by
  cases k <;> first | rfl | cases h

/-- A statement starts like no other declaration. -/
theorem StartsStatement.head {ts : List Token} (h : StartsStatement ts) :
    ∃ t us, ts = t :: us ∧ t.kind ≠ .classKw ∧ t.kind ≠ .varKw ∧
      (t.kind = .funKw → ∃ u vs, us = u :: vs ∧ u.kind = .leftParen) := by
  rcases h with ⟨t, us, rfl, hk⟩ | h
  · refine ⟨t, us, rfl, ?_, ?_, ?_⟩ <;> intro he <;> rw [he] at hk <;> cases hk
  · obtain ⟨t, us, rfl, hk⟩ := h.head
    obtain ⟨_, _, ⟨⟩, -, hfun⟩ := h
    exact ⟨t, us, rfl, TokenKind.ne_of_startsExpression hk rfl,
      TokenKind.ne_of_startsExpression hk rfl, hfun⟩

/-- A function or method is spelled from its name on. -/
theorem Spells.function_head {ts : List Token} {f : Function Unit}
    (h : Spells ts (.function f)) : ∃ t us, ts = t :: us ∧ t.kind = .identifier := by
  cases h with
  | function hname => exact ⟨_, _, rfl, hname⟩

/-! ## Ends -/

/-- Tokens that do not go on with a choice. -/
def EndsChoice (ts : List Token) : Prop :=
  ∀ t us, ts = t :: us → t.kind ≠ .elifKw ∧ t.kind ≠ .elseKw

/-- Tokens that do not go on with the declarations of a block. -/
def EndsBlock (ts : List Token) : Prop :=
  ∀ t us, ts = t :: us → t.kind = .rightBrace

/-- A declaration does not go on with the choice in front of it. -/
theorem StartsDeclaration.endsChoice {ts : List Token} (h : StartsDeclaration ts)
    (us : List Token) : EndsChoice (ts ++ us) := by
  obtain ⟨t, rest, rfl, -, h⟩ := h
  rintro _ _ ⟨⟩
  exact h

/-- Neither does the end of a block. -/
theorem EndsBlock.endsChoice {ts : List Token} (h : EndsBlock ts) : EndsChoice ts := by
  intro t us ht
  rw [h t us ht]
  decide

/-- Without branches, there are no tokens, and nothing is left open. -/
theorem Spells.eq_nil_of_elifs {ts : List Token} {isOpen : Bool}
    (h : Spells ts (.elifs [] isOpen)) : ts = [] ∧ isOpen = false := by
  cases h
  exact ⟨rfl, rfl⟩

/-- There is no branch in front of tokens that do not go on with a choice. -/
theorem Spells.elifs_of_endsChoice {ts r : List Token} {branches : List (Elif Unit)}
    {isOpen : Bool} (h : Spells ts (.elifs branches isOpen)) (hend : EndsChoice (ts ++ r)) :
    branches = [] := by
  cases h with
  | noElifs => rfl
  | elifs hw => exact absurd hw (hend _ _ rfl).1

/-- Branches that an `else` follows leave the choice open. -/
theorem Spells.not_endsChoice_else {ts us : List Token} {branches : List (Elif Unit)}
    {isOpen : Bool} {otherwise : Token} (h : Spells ts (.elifs branches isOpen))
    (ho : otherwise.kind = .elseKw) : ¬ EndsChoice (ts ++ otherwise :: us) := by
  intro hend
  obtain rfl := h.elifs_of_endsChoice hend
  obtain ⟨rfl, -⟩ := h.eq_nil_of_elifs
  exact (hend _ _ rfl).2 ho

theorem Spells.endsChoice_of_declarations {ts us : List Token} {body : List (Stmt Unit)}
    (h : Spells ts (.declarations body)) (hus : EndsChoice us) : EndsChoice (ts ++ us) := by
  cases h with
  | noDeclarations => exact hus
  | declarations hs =>
    rw [List.append_assoc]
    exact StartsDeclaration.endsChoice hs.starts _

/-! ## Levels of tokens -/

/-- The level of the operators that a token may go on with, behind an expression. -/
def TokenKind.joins? : TokenKind → Option Level
  | .leftParen | .dot => some .call
  | .star | .slash => some .factor
  | .plus | .minus => some .term
  | .greater | .greaterEqual | .less | .lessEqual => some .comparison
  | .equalEqual | .bangEqual => some .equality
  | .andKw => some .conjunction
  | .orKw => some .disjunction
  | .equal => some .assignment
  | _ => none

theorem TokenKind.joins?_of_closes {k : TokenKind} (h : k.closes = true) : k.joins? = none := by
  cases k <;> first | rfl | cases h

/-- Nothing goes on with an expression in a place of the given level. -/
def Level.Stops (l : Level) (ts : List Token) : Prop :=
  ∀ t us, ts = t :: us → ∀ l', t.kind.joins? = some l' → l' < l

/-- What ends an expression at a level ends it at tighter ones. -/
theorem Level.Stops.tighten {l l' : Level} (hl : l ≤ l') {ts : List Token} (h : l.Stops ts) :
    l'.Stops ts :=
  fun t us ht k hk => (h t us ht k hk).trans_le hl

/-- An operator ends the expressions that bind tighter than it. -/
theorem Level.stops_of_joins {l l' : Level} (hl : l' < l) {t : Token} {ts : List Token}
    (h : t.kind.joins? = some l') : l.Stops (t :: ts) := by
  rintro _ _ ⟨⟩ k hk
  rw [h] at hk
  cases hk
  exact hl

/-- A token that is no operator ends every expression. -/
theorem Level.stops_of_none {l : Level} {t : Token} {ts : List Token}
    (h : t.kind.joins? = none) : l.Stops (t :: ts) := by
  rintro _ _ ⟨⟩ k hk
  rw [h] at hk
  cases hk

/-- How a token joins its operands at a level. -/
inductive Level.Joins (l : Level) (t : Token) : (Expr Unit → Expr Unit → Expr Unit) → Prop where
  | binary {op : BinaryOp} : op.level = l → t.kind = op.token →
      Joins l t fun a b => .binary a op t.line b
  | logical {op : LogicalOp} : op.level = l → t.kind = op.token →
      Joins l t fun a b => .logical a op t.line b

theorem Level.Joins.joins? {l : Level} {t : Token} {join : Expr Unit → Expr Unit → Expr Unit}
    (h : l.Joins t join) : t.kind.joins? = some l := by
  cases h with
  | @binary op hl ht => rw [ht, ← hl]; cases op <;> rfl
  | @logical op hl ht => rw [ht, ← hl]; cases op <;> rfl

/-! ## Lists -/

/-- There is a comma between any two items. -/
theorem Separated.length_le {α : Type} {Item : List Token → α → Prop} {ts : List Token}
    {as : List α} (h : Separated Item ts as) : as.length ≤ ts.length + 1 := by
  induction h with
  | nil => simp
  | single => simp
  | cons _ _ _ ih =>
    simp only [List.length_cons, List.length_append] at ih ⊢
    omega

/-- Arguments are expressions with commas between them. -/
theorem Spells.separated {ts : List Token} {es : List (Expr Unit)} (h : Spells ts (.arguments es)) :
    Separated (fun us e => Spells us (.expression .assignment e)) ts es := by
  generalize hp : Phrase.arguments es = p at h
  induction h generalizing es with
  | noArguments => cases hp; exact .nil
  | lastArgument he => cases hp; exact .single he
  | arguments he hc _ _ ih => cases hp; exact .cons he hc (ih rfl)
  | _ => cases hp

/-- Expressions with commas between them are arguments. -/
theorem Separated.arguments {ts : List Token} {es : List (Expr Unit)}
    (h : Separated (fun us e => Spells us (.expression .assignment e)) ts es) :
    Spells ts (.arguments es) := by
  induction h with
  | nil => exact .noArguments
  | single he => exact .lastArgument he
  | cons he hc _ ih => exact .arguments he hc ih

/-! ## Chains -/

/-- Tokens that lead from one expression to another by steps. -/
inductive Continued (Step : Expr Unit → List Token → Expr Unit → Prop) :
    Expr Unit → List Token → Expr Unit → Prop where
  | done (a : Expr Unit) : Continued Step a [] a
  | more {a b e : Expr Unit} {ts us : List Token} : Step a ts b → Continued Step b us e →
      Continued Step a (ts ++ us) e

theorem Continued.last {Step : Expr Unit → List Token → Expr Unit → Prop} {a b e : Expr Unit}
    {ts us : List Token} (h : Continued Step a ts b) (hs : Step b us e) :
    Continued Step a (ts ++ us) e := by
  induction h with
  | done a => simpa using Continued.more hs (.done e)
  | more h' _ ih =>
    rw [List.append_assoc]
    exact .more h' (ih hs)

/-- An operator of the level with its right operand. -/
inductive Level.Step (l : Level) (a : Expr Unit) : List Token → Expr Unit → Prop where
  | mk {t : Token} {ts : List Token} {join : Expr Unit → Expr Unit → Expr Unit} {b : Expr Unit} :
      l.Joins t join → Spells ts (.expression l.tighter b) → Step l a (t :: ts) (join a b)

/-- A call or a property. -/
inductive Suffix (a : Expr Unit) : List Token → Expr Unit → Prop where
  | call {opening closing : Token} {ts : List Token} {es : List (Expr Unit)} :
      opening.kind = .leftParen → Spells ts (.arguments es) → es.length ≤ maxArguments →
      closing.kind = .rightParen →
      Suffix a (opening :: (ts ++ [closing])) (.call a closing.line es)
  | get {dot name : Token} : dot.kind = .dot → name.kind = .identifier →
      Suffix a [dot, name] (.get a name.name)

/-- An expression is no looser than its place allows. -/
theorem Spells.le_level {l : Level} {ts : List Token} {e : Expr Unit}
    (h : Spells ts (.expression l e)) : l ≤ e.level := by
  cases h with
  | call hl | get hl | unary hl | binary hl | logical hl => exact hl
  | assign | set => exact le_rfl
  | _ => exact Level.le_primary l

/-- An expression can be spelled the same way in every place that allows it. -/
theorem Spells.relevel {l l' : Level} {ts : List Token} {e : Expr Unit}
    (h : Spells ts (.expression l e)) (hl : l' ≤ e.level) : Spells ts (.expression l' e) := by
  cases h with
  | falsity ht => exact .falsity ht
  | truth ht => exact .truth ht
  | nil ht => exact .nil ht
  | literal ht => exact .literal ht
  | this ht => exact .this ht
  | super ht hd hm => exact .super ht hd hm
  | «variable» ht => exact .variable ht
  | lambda ht hcode => exact .lambda ht hcode
  | grouping ho he hc => exact .grouping ho he hc
  | call _ hf ho ha hn hc => exact .call hl hf ho ha hn hc
  | get _ ho hd hn => exact .get hl ho hd hn
  | unary _ ht he => exact .unary hl ht he
  | binary _ ha ht hb => exact .binary hl ha ht hb
  | logical _ ha ht hb => exact .logical hl ha ht hb
  | assign ht heq he =>
    obtain rfl := le_antisymm hl (Level.assignment_le l')
    exact .assign ht heq he
  | set ho hd hn heq hv =>
    obtain rfl := le_antisymm hl (Level.assignment_le l')
    exact .set ho hd hn heq hv

/-- An expression may stand where a looser one may. -/
theorem Spells.loosen {l l' : Level} (hl : l ≤ l') {ts : List Token} {e : Expr Unit}
    (h : Spells ts (.expression l' e)) : Spells ts (.expression l e) :=
  h.relevel (hl.trans h.le_level)

theorem Spells.join {l : Level} {t : Token} {join : Expr Unit → Expr Unit → Expr Unit}
    (hj : l.Joins t join) {ts us : List Token} {a b : Expr Unit}
    (ha : Spells ts (.expression l a)) (hb : Spells us (.expression l.tighter b)) :
    Spells (ts ++ t :: us) (.expression l (join a b)) := by
  cases hj with
  | binary hl ht =>
    subst hl
    exact .binary le_rfl ha ht hb
  | logical hl ht =>
    subst hl
    exact .logical le_rfl ha ht hb

/-- Steps behind an expression of the level are part of one. -/
theorem Continued.spells {l : Level} {a e : Expr Unit} {us : List Token}
    (h : Continued l.Step a us e) {ts : List Token} (ha : Spells ts (.expression l a)) :
    Spells (ts ++ us) (.expression l e) := by
  induction h generalizing ts with
  | done a => simpa using ha
  | more hs _ ih =>
    rw [← List.append_assoc]
    cases hs with
    | mk hj hb => exact ih (Spells.join hj ha hb)

/-- Calls and properties behind an expression are part of one. -/
theorem Continued.spells_call {a e : Expr Unit} {us : List Token} (h : Continued Suffix a us e)
    {ts : List Token} (ha : Spells ts (.expression .call a)) :
    Spells (ts ++ us) (.expression .call e) := by
  induction h generalizing ts with
  | done a => simpa using ha
  | more hs _ ih =>
    rw [← List.append_assoc]
    cases hs with
    | call ho hes hn hc => exact ih (.call le_rfl ha ho hes hn hc)
    | get hd hn => exact ih (.get le_rfl ha hd hn)

/-- The levels of operators between two operands. -/
def Level.IsInfix (l : Level) : Prop := .disjunction ≤ l ∧ l ≤ .factor

theorem Level.IsInfix.tighter_le {l l' : Level} (hl : l.IsInfix) (h : l < l') :
    l.tighter ≤ l' := by
  obtain ⟨h₁, h₂⟩ := hl
  rw [Level.lt_iff] at h
  rw [Level.le_iff] at h₁ h₂ ⊢
  cases l <;> simp_all [Level.rank, Level.tighter] <;> omega

theorem Level.IsInfix.lt_tighter {l : Level} (hl : l.IsInfix) : l < l.tighter := by
  obtain ⟨h₁, h₂⟩ := hl
  rw [Level.le_iff] at h₁ h₂
  rw [Level.lt_iff]
  cases l <;> simp_all [Level.rank, Level.tighter]

theorem Level.IsInfix.lt_primary {l : Level} (hl : l.IsInfix) : l < .primary :=
  hl.2.trans_lt (by decide)

/-- Tokens that are an operand of the next level and then steps. -/
def Chained (l : Level) (ts : List Token) (e : Expr Unit) : Prop :=
  ∃ us a vs, ts = us ++ vs ∧ Spells us (.expression l.tighter a) ∧ Continued l.Step a vs e

/-- An expression that binds tighter is a chain of one operand. -/
theorem Chained.of_lt {l : Level} (hl : l.IsInfix) {ts : List Token} {e : Expr Unit}
    (h : Spells ts (.expression l e)) (hlt : l < e.level) : Chained l ts e :=
  ⟨ts, e, [], by simp, h.relevel (hl.tighter_le hlt), .done e⟩

/-- A chain grows by an operator and an operand behind it. -/
theorem Chained.join {l : Level} {t : Token} {join : Expr Unit → Expr Unit → Expr Unit}
    (hj : l.Joins t join) {ts us : List Token} {a b : Expr Unit} (ha : Chained l ts a)
    (hb : Spells us (.expression l.tighter b)) : Chained l (ts ++ t :: us) (join a b) := by
  obtain ⟨us', a', vs, rfl, ha', hc⟩ := ha
  exact ⟨us', a', vs ++ t :: us, by simp, ha', hc.last (.mk hj hb)⟩

/-- An expression of a level of operators is an operand of the next level and then
steps. -/
theorem Spells.chain {l : Level} (hl : l.IsInfix) {ts : List Token} {e : Expr Unit}
    (h : Spells ts (.expression l e)) : Chained l ts e := by
  generalize hp : Phrase.expression l e = p at h
  -- The left operand stands at the same level, so it is taken apart in the same way.
  induction h generalizing e with
  | @binary t ts us _ op a b hle ha ht hb ih =>
    cases hp
    rcases hle.lt_or_eq with hlt | rfl
    · exact .of_lt hl (.binary hle ha ht hb) hlt
    · exact .join (.binary rfl ht) (ih rfl) hb
  | @logical t ts us _ op a b hle ha ht hb ih =>
    cases hp
    rcases hle.lt_or_eq with hlt | rfl
    · exact .of_lt hl (.logical hle ha ht hb) hlt
    · exact .join (.logical rfl ht) (ih rfl) hb
  | falsity ht => cases hp; exact .of_lt hl (.falsity ht) hl.lt_primary
  | truth ht => cases hp; exact .of_lt hl (.truth ht) hl.lt_primary
  | nil ht => cases hp; exact .of_lt hl (.nil ht) hl.lt_primary
  | literal ht => cases hp; exact .of_lt hl (.literal ht) hl.lt_primary
  | this ht => cases hp; exact .of_lt hl (.this ht) hl.lt_primary
  | super ht hd hm => cases hp; exact .of_lt hl (.super ht hd hm) hl.lt_primary
  | «variable» ht => cases hp; exact .of_lt hl (.variable ht) hl.lt_primary
  | lambda ht hcode => cases hp; exact .of_lt hl (.lambda ht hcode) hl.lt_primary
  | grouping ho he hc => cases hp; exact .of_lt hl (.grouping ho he hc) hl.lt_primary
  | call hle hf ho hes hn hc =>
    cases hp
    exact .of_lt hl (.call hle hf ho hes hn hc)
      (hl.2.trans_lt (show Level.factor < .call by decide))
  | get hle ho hd hn =>
    cases hp
    exact .of_lt hl (.get hle ho hd hn) (hl.2.trans_lt (show Level.factor < .call by decide))
  | unary hle ht he =>
    cases hp
    exact .of_lt hl (.unary hle ht he) (hl.2.trans_lt (show Level.factor < .unary by decide))
  | assign | set =>
    cases hp
    exact absurd hl.1 (by decide)
  | _ => cases hp

/-- An expression with calls and properties is one without them and then steps. -/
theorem Spells.suffixes {ts : List Token} {e : Expr Unit} (h : Spells ts (.expression .call e)) :
    ∃ us a vs, ts = us ++ vs ∧ Spells us (.expression .primary a) ∧ Continued Suffix a vs e := by
  have whole {ts : List Token} {e : Expr Unit} (h : Spells ts (.expression .primary e)) :
      ∃ us a vs, ts = us ++ vs ∧ Spells us (.expression .primary a) ∧ Continued Suffix a vs e :=
    ⟨ts, e, [], by simp, h, .done e⟩
  generalize hp : Phrase.expression .call e = p at h
  induction h generalizing e with
  | @call ts us opening closing _ _ _ _ _ ho hes hn hc ih =>
    cases hp
    obtain ⟨us', a, vs, rfl, ha, hcont⟩ := ih rfl
    exact ⟨us', a, vs ++ opening :: (us ++ [closing]), by simp, ha,
      hcont.last (.call ho hes hn hc)⟩
  | @get ts dot name _ _ _ _ hd hn ih =>
    cases hp
    obtain ⟨us', a, vs, rfl, ha, hcont⟩ := ih rfl
    exact ⟨us', a, vs ++ [dot, name], by simp, ha, hcont.last (.get hd hn)⟩
  | falsity ht => cases hp; exact whole (.falsity ht)
  | truth ht => cases hp; exact whole (.truth ht)
  | nil ht => cases hp; exact whole (.nil ht)
  | literal ht => cases hp; exact whole (.literal ht)
  | this ht => cases hp; exact whole (.this ht)
  | super ht hd hm => cases hp; exact whole (.super ht hd hm)
  | «variable» ht => cases hp; exact whole (.variable ht)
  | lambda ht hcode => cases hp; exact whole (.lambda ht hcode)
  | grouping ho he hc => cases hp; exact whole (.grouping ho he hc)
  | unary hle => cases hp; exact absurd hle (by decide)
  | @binary _ _ _ _ op _ _ hle => cases hp; exact absurd hle (by cases op <;> decide)
  | @logical _ _ _ _ op _ _ hle => cases hp; exact absurd hle (by cases op <;> decide)
  | _ => cases hp

end ClassScript
