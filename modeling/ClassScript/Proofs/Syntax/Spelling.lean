import ClassScript.Proofs.Syntax.Grammatical
import Mathlib.Data.List.Forall2

/-!
# Spellings

A tree says of each of its tokens what the token has to be: its kind, and for some its
name, its literal or its line.  `marks` lists that for the trees of a program, written
without `for` and without parentheses other than those that the trees have.  The rest of
a token, such as the line of a semicolon, may be anything.

Every grammatical program is read back from every such spelling, token by token and
without a mistake (`Parse.ofTokens_spelling`).
-/

namespace ClassScript

/-! ## Marks -/

/-- What a tree says of a token. -/
structure Mark where
  /-- The kind of the token. -/
  kind : TokenKind
  /-- Its name. -/
  name : Option String
  /-- Its literal. -/
  literal : Option Literal
  /-- Its line. -/
  line : Option Nat

/-- A token that is as a tree says. -/
structure Mark.Marks (m : Mark) (t : Token) : Prop where
  kind : t.kind = m.kind
  name : ∀ x ∈ m.name, t.text = x
  literal : ∀ v ∈ m.literal, t.literal = some v
  line : ∀ l ∈ m.line, t.line = l

instance (m : Mark) (t : Token) : Decidable (m.Marks t) :=
  decidable_of_iff
    (t.kind = m.kind ∧ (∀ x ∈ m.name, t.text = x) ∧ (∀ v ∈ m.literal, t.literal = some v) ∧
      ∀ l ∈ m.line, t.line = l)
    ⟨fun h => ⟨h.1, h.2.1, h.2.2.1, h.2.2.2⟩, fun h => ⟨h.kind, h.name, h.literal, h.line⟩⟩

namespace Mark

/-- A token of which only the kind matters. -/
def symbol (kind : TokenKind) : Mark := ⟨kind, none, none, none⟩

/-- A token of which the kind and the line matter. -/
def onLine (kind : TokenKind) (line : Nat) : Mark := ⟨kind, none, none, some line⟩

/-- A token that is a name. -/
def ofName (name : Name) : Mark := ⟨.identifier, some name.text, none, some name.line⟩

/-- A token that is a value. -/
def ofLiteral : Literal → Mark
  | .nil => symbol .nilKw
  | .boolean true => symbol .trueKw
  | .boolean false => symbol .falseKw
  | .number value => ⟨.number, none, some (.number value), none⟩
  | .string value => ⟨.string, none, some (.string value), none⟩

/-- Items with commas between them. -/
def separated : List (List Mark) → List Mark
  | [] => []
  | [item] => item
  | item :: items => item ++ symbol .comma :: separated items

/-- Something in parentheses. -/
def parenthesized (inner : List Mark) : List Mark :=
  symbol .leftParen :: (inner ++ [symbol .rightParen])

/-- Something in braces. -/
def braced (inner : List Mark) : List Mark :=
  symbol .leftBrace :: (inner ++ [symbol .rightBrace])

/-- The parameters and the body of a function. -/
def code (parameters : List Name) (body : List Mark) : List Mark :=
  parenthesized (separated (parameters.map fun p => [ofName p])) ++ braced body

end Mark

open Mark

/-- The tokens of the superclass of a class. -/
def parentMarks {β : Type} : Option (Reference β) → List Mark
  | none => []
  | some parent => [symbol .less, ofName parent.name]

mutual

/-- The tokens of an expression. -/
def Expr.marks {β : Type} : Expr β → List Mark
  | .literal value => [ofLiteral value]
  | .grouping inner => parenthesized inner.marks
  | .unary op line operand => onLine op.token line :: operand.marks
  | .binary left op line right => left.marks ++ onLine op.token line :: right.marks
  | .logical left op line right => left.marks ++ onLine op.token line :: right.marks
  | .variable target => [ofName target.name]
  | .assign target value => ofName target.name :: symbol .equal :: value.marks
  | .call callee line arguments =>
      callee.marks ++ symbol .leftParen ::
        (separated (exprMarks arguments) ++ [onLine .rightParen line])
  | .get object property => object.marks ++ [symbol .dot, ofName property]
  | .set object field value =>
      object.marks ++ symbol .dot :: ofName field :: symbol .equal :: value.marks
  | .this line _ => [onLine .thisKw line]
  | .super line method _ => [onLine .superKw line, symbol .dot, ofName method]
  | .lambda line parameters body =>
      onLine .funKw line :: code parameters (stmtMarks body)

/-- The tokens of each of some expressions. -/
def exprMarks {β : Type} : List (Expr β) → List (List Mark)
  | [] => []
  | e :: rest => e.marks :: exprMarks rest

/-- The tokens of a statement. -/
def Stmt.marks {β : Type} : Stmt β → List Mark
  | .expression value => value.marks ++ [symbol .semicolon]
  | .print value => symbol .printKw :: (value.marks ++ [symbol .semicolon])
  | .var name none => [symbol .varKw, ofName name, symbol .semicolon]
  | .var name (some value) =>
      symbol .varKw :: ofName name :: symbol .equal :: (value.marks ++ [symbol .semicolon])
  | .block body => braced (stmtMarks body)
  | .ifStmt condition thenBranch elifs elseBranch =>
      symbol .ifKw :: (parenthesized condition.marks ++ thenBranch.marks ++ elifMarks elifs ++
        elseMarks elseBranch)
  | .whileStmt condition body => symbol .whileKw :: (parenthesized condition.marks ++ body.marks)
  | .functionDecl f => symbol .funKw :: f.marks
  | .returnStmt line none => [onLine .returnKw line, symbol .semicolon]
  | .returnStmt line (some value) =>
      onLine .returnKw line :: (value.marks ++ [symbol .semicolon])
  | .breakStmt line => [onLine .breakKw line, symbol .semicolon]
  | .classDecl name superclass methods =>
      symbol .classKw :: ofName name ::
        (parentMarks superclass ++ braced (functionMarks methods))

/-- The tokens of statements in sequence. -/
def stmtMarks {β : Type} : List (Stmt β) → List Mark
  | [] => []
  | s :: rest => s.marks ++ stmtMarks rest

/-- The tokens of the branches of a choice. -/
def elifMarks {β : Type} : List (Elif β) → List Mark
  | [] => []
  | .mk condition body :: rest =>
      symbol .elifKw :: (parenthesized condition.marks ++ body.marks ++ elifMarks rest)

/-- The tokens of the last branch of a choice. -/
def elseMarks {β : Type} : Option (Stmt β) → List Mark
  | none => []
  | some s => symbol .elseKw :: s.marks

/-- The tokens of a function from its name on. -/
def Function.marks {β : Type} : Function β → List Mark
  | .mk name parameters body =>
      ofName name :: code parameters (stmtMarks body)

/-- The tokens of methods. -/
def functionMarks {β : Type} : List (Function β) → List Mark
  | [] => []
  | f :: rest => f.marks ++ functionMarks rest

end

/-- Tokens that are as a tree says, one by one. -/
def Marked (marks : List Mark) (ts : List Token) : Prop := List.Forall₂ Mark.Marks marks ts

namespace Marked

variable {marks more : List Mark} {ts : List Token}

theorem eq_nil (h : Marked [] ts) : ts = [] := by
  cases h
  rfl

/-- Tokens with marks in sequence are those with the first marks and then those with the
others. -/
theorem append (h : Marked (marks ++ more) ts) :
    ∃ us vs, ts = us ++ vs ∧ Marked marks us ∧ Marked more vs := by
  induction marks generalizing ts with
  | nil => exact ⟨[], ts, rfl, .nil, h⟩
  | cons m rest ih =>
    cases h with
    | @cons _ t _ us ht hus =>
      obtain ⟨us, vs, rfl, hrest, hmore⟩ := ih hus
      exact ⟨t :: us, vs, rfl, .cons ht hrest, hmore⟩

theorem symbol {kind : TokenKind} (h : Marked (Mark.symbol kind :: marks) ts) :
    ∃ t us, ts = t :: us ∧ t.kind = kind ∧ Marked marks us := by
  cases h with
  | cons ht hus => exact ⟨_, _, rfl, ht.kind, hus⟩

theorem onLine {kind : TokenKind} {line : Nat} (h : Marked (Mark.onLine kind line :: marks) ts) :
    ∃ t us, ts = t :: us ∧ t.kind = kind ∧ t.line = line ∧ Marked marks us := by
  cases h with
  | cons ht hus => exact ⟨_, _, rfl, ht.kind, ht.line line rfl, hus⟩

/-- A name is spelled by one identifier on its line. -/
theorem ofName {name : Name} (h : Marked (Mark.ofName name :: marks) ts) :
    ∃ t us, ts = t :: us ∧ t.kind = .identifier ∧ t.name = name ∧ Marked marks us := by
  cases h with
  | @cons _ t _ us ht hus =>
    have hname : t.name = name := by
      rw [Token.name, ht.name _ rfl, ht.line _ rfl]
    exact ⟨t, us, rfl, ht.kind, hname, hus⟩

theorem value {kind : TokenKind} {v : Literal}
    (h : Marked (⟨kind, none, some v, none⟩ :: marks) ts) :
    ∃ t us, ts = t :: us ∧ t.kind = kind ∧ t.literal.getD .nil = v ∧ Marked marks us := by
  cases h with
  | @cons _ t _ us ht hus =>
    exact ⟨t, us, rfl, ht.kind, by rw [ht.literal v rfl]; rfl, hus⟩

/-- Marks in parentheses are spelled between a pair of them. -/
theorem inParentheses (h : Marked (Mark.parenthesized marks) ts) :
    ∃ opening us closing, ts = opening :: (us ++ [closing]) ∧ opening.kind = .leftParen ∧
      closing.kind = .rightParen ∧ Marked marks us := by
  obtain ⟨opening, us, rfl, ho, h⟩ := h.symbol
  obtain ⟨us, rest, rfl, hmarks, h⟩ := h.append
  obtain ⟨closing, rest, rfl, hc, h⟩ := h.symbol
  obtain rfl := h.eq_nil
  exact ⟨opening, us, closing, rfl, ho, hc, hmarks⟩

theorem braced (h : Marked (Mark.braced marks) ts) :
    ∃ opening us closing, ts = opening :: (us ++ [closing]) ∧ opening.kind = .leftBrace ∧
      closing.kind = .rightBrace ∧ Marked marks us := by
  obtain ⟨opening, us, rfl, ho, h⟩ := h.symbol
  obtain ⟨us, rest, rfl, hmarks, h⟩ := h.append
  obtain ⟨closing, rest, rfl, hc, h⟩ := h.symbol
  obtain rfl := h.eq_nil
  exact ⟨opening, us, closing, rfl, ho, hc, hmarks⟩

/-- What is marked as items with commas between them is separated. -/
theorem separated {α : Type} {Item : List Token → α → Prop} {mark : α → List Mark} :
    ∀ {items : List α} {ts : List Token},
      (∀ a ∈ items, ∀ us, Marked (mark a) us → Item us a) →
      Marked (Mark.separated (items.map mark)) ts → Separated Item ts items
  | [], _, _, h => h.eq_nil ▸ .nil
  | [a], _, hitem, h => .single (hitem a (List.mem_singleton_self a) _ h)
  | a :: b :: rest, ts, hitem, h => by
    obtain ⟨us, vs, rfl, ha, h⟩ := append h
    obtain ⟨comma, vs, rfl, hcomma, h⟩ := h.symbol
    exact .cons (hitem a (List.mem_cons_self ..) us ha) hcomma
      (separated (fun a' ha' => hitem a' (List.mem_cons_of_mem _ ha')) h)

theorem parent {parent : Option (Reference Unit)} (h : Marked (parentMarks parent) ts) :
    Spells ts (.superclass parent) := by
  cases parent with
  | none => exact h.eq_nil ▸ .noSuperclass
  | some parent =>
    obtain ⟨name, _⟩ := parent
    obtain ⟨less, us, rfl, hless, hus⟩ := h.symbol
    obtain ⟨t, us, rfl, ht, rfl, hnil⟩ := hus.ofName
    obtain rfl := hnil.eq_nil
    exact .superclass hless ht

theorem condition {e : Expr Unit}
    (he : ∀ us, Marked marks us → Spells us (.expression e.level e))
    (h : Marked (Mark.parenthesized marks) ts) : Spells ts (.condition e) := by
  obtain ⟨opening, us, closing, rfl, ho, hc, hmarks⟩ := h.inParentheses
  exact .condition ho ((he us hmarks).loosen (Level.assignment_le _)) hc

/-- Parameters and a body are spelled with their parentheses and braces. -/
theorem code {names : List Name} {body : List (Stmt Unit)}
    (hlength : names.length ≤ maxArguments)
    (hbody : ∀ us, Marked marks us → Spells us (.declarations body))
    (h : Marked (Mark.code names marks) ts) : Spells ts (.code names body) := by
  obtain ⟨us, vs, rfl, hparameters, hblock⟩ := h.append
  obtain ⟨opening, us, closing, rfl, ho, hc, hnames⟩ := hparameters.inParentheses
  obtain ⟨opening', vs, closing', rfl, ho', hc', hmarks⟩ := hblock.braced
  have hseparated : Separated Token.Names us names := by
    refine separated (fun name _ us h => ?_) hnames
    obtain ⟨t, us, rfl, ht, hname, h⟩ := h.ofName
    obtain rfl := h.eq_nil
    exact ⟨t, ht, rfl, hname.symm⟩
  simpa using Spells.code ho hseparated hlength hc (.block ho' (hbody vs hmarks) hc')

end Marked

/-! ## Spellings of grammatical trees -/

theorem exprMarks_eq {β : Type} (es : List (Expr β)) : exprMarks es = es.map Expr.marks := by
  induction es with
  | nil => rfl
  | cons e rest ih => rw [exprMarks, ih, List.map_cons]

/-- Tokens that spell a statement where a declaration may stand, and where none may if
it is none. -/
structure Stmt.Spelled (ts : List Token) (s : Stmt Unit) : Prop where
  declaration : ∃ isOpen, Spells ts (.declaration s isOpen)
  statement : s.declared = none → Spells ts (.statement s s.endsOpen)

/-- Tokens that spell a statement spell it as a declaration. -/
theorem Spells.spelled {ts : List Token} {s : Stmt Unit}
    (h : Spells ts (.statement s s.endsOpen)) : Stmt.Spelled ts s :=
  ⟨⟨_, .statementDecl h⟩, fun _ => h⟩

theorem Spells.spelled_declaration {ts : List Token} {s : Stmt Unit} {isOpen : Bool}
    (h : Spells ts (.declaration s isOpen)) (hs : s.declared ≠ none) : Stmt.Spelled ts s :=
  ⟨⟨isOpen, h⟩, fun hnone => absurd hnone hs⟩

mutual

/-- Tokens with the marks of a grammatical expression spell it, at its level. -/
theorem Expr.spells : ∀ (e : Expr Unit) {ts : List Token}, e.Grammatical → Marked e.marks ts →
    Spells ts (.expression e.level e)
  | .literal value, ts, _, hts => by
    cases value with
    | nil =>
      obtain ⟨t, us, rfl, ht, h⟩ := Marked.symbol hts
      exact h.eq_nil ▸ .nil ht
    | boolean value =>
      cases value with
      | false =>
        obtain ⟨t, us, rfl, ht, h⟩ := Marked.symbol hts
        exact h.eq_nil ▸ .falsity ht
      | true =>
        obtain ⟨t, us, rfl, ht, h⟩ := Marked.symbol hts
        exact h.eq_nil ▸ .truth ht
    | number value =>
      obtain ⟨t, us, rfl, ht, hvalue, h⟩ := hts.value
      obtain rfl := h.eq_nil
      have hspells : Spells [t] (.expression .primary _) := .literal (.inl ht)
      rwa [hvalue] at hspells
    | string value =>
      obtain ⟨t, us, rfl, ht, hvalue, h⟩ := hts.value
      obtain rfl := h.eq_nil
      have hspells : Spells [t] (.expression .primary _) := .literal (.inr ht)
      rwa [hvalue] at hspells
  | .grouping inner, ts, he, hts => by
    obtain ⟨opening, us, closing, rfl, ho, hc, hinner⟩ := hts.inParentheses
    exact .grouping ho ((inner.spells he hinner).loosen (Level.assignment_le _)) hc
  | .unary op line operand, ts, he, hts => by
    obtain ⟨t, us, rfl, ht, rfl, hoperand⟩ := hts.onLine
    exact .unary le_rfl ht ((operand.spells he.2 hoperand).loosen he.1)
  | .binary left op line right, ts, he, hts => by
    obtain ⟨⟨hl, hleft⟩, hr, hright⟩ := he
    obtain ⟨us, vs, rfl, h, hvs⟩ := Marked.append hts
    obtain ⟨t, vs, rfl, ht, rfl, h'⟩ := hvs.onLine
    exact .binary le_rfl ((left.spells hleft h).loosen hl) ht
      ((right.spells hright h').loosen (op.isInfix.tighter_le hr))
  | .logical left op line right, ts, he, hts => by
    obtain ⟨⟨hl, hleft⟩, hr, hright⟩ := he
    obtain ⟨us, vs, rfl, h, hvs⟩ := Marked.append hts
    obtain ⟨t, vs, rfl, ht, rfl, h'⟩ := hvs.onLine
    exact .logical le_rfl ((left.spells hleft h).loosen hl) ht
      ((right.spells hright h').loosen (op.isInfix.tighter_le hr))
  | .variable ⟨name, _⟩, ts, _, hts => by
    obtain ⟨t, us, rfl, ht, rfl, h⟩ := hts.ofName
    exact h.eq_nil ▸ .variable ht
  | .assign ⟨name, _⟩ value, ts, he, hts => by
    obtain ⟨t, us, rfl, ht, rfl, hus⟩ := hts.ofName
    obtain ⟨equal, vs, rfl, hequal, h⟩ := hus.symbol
    exact .assign ht hequal ((value.spells he h).loosen (Level.assignment_le _))
  | .call callee line arguments, ts, he, hts => by
    obtain ⟨⟨hl, hcallee⟩, harguments, hlength⟩ := he
    obtain ⟨us, vs, rfl, h, hvs⟩ := Marked.append hts
    obtain ⟨opening, vs, rfl, ho, hvs⟩ := hvs.symbol
    obtain ⟨vs, ws, rfl, h', hws⟩ := hvs.append
    obtain ⟨closing, ws, rfl, hc, rfl, h''⟩ := hws.onLine
    obtain rfl := h''.eq_nil
    rw [exprMarks_eq] at h'
    have hseparated := h'.separated fun e he us h => Expr.spells_all arguments harguments e he h
    exact .call le_rfl ((callee.spells hcallee h).loosen hl) ho hseparated.arguments hlength hc
  | .get object property, ts, he, hts => by
    obtain ⟨us, vs, rfl, h, hvs⟩ := Marked.append hts
    obtain ⟨dot, vs, rfl, hd, hvs⟩ := hvs.symbol
    obtain ⟨t, vs, rfl, ht, rfl, h'⟩ := hvs.ofName
    obtain rfl := h'.eq_nil
    exact .get le_rfl ((object.spells he.2 h).loosen he.1) hd ht
  | .set object field value, ts, he, hts => by
    obtain ⟨⟨hl, hobject⟩, hvalue⟩ := he
    obtain ⟨us, vs, rfl, h, hdot⟩ := Marked.append hts
    obtain ⟨dot, vs, rfl, hd, hname⟩ := hdot.symbol
    obtain ⟨t, vs, rfl, ht, rfl, hrest⟩ := hname.ofName
    obtain ⟨equal, vs, rfl, hequal, h'⟩ := hrest.symbol
    exact .set ((object.spells hobject h).loosen hl) hd ht hequal
      ((value.spells hvalue h').loosen (Level.assignment_le _))
  | .this line _, ts, _, hts => by
    obtain ⟨t, us, rfl, ht, rfl, h⟩ := hts.onLine
    exact h.eq_nil ▸ .this ht
  | .super line method _, ts, _, hts => by
    obtain ⟨t, us, rfl, ht, rfl, hus⟩ := hts.onLine
    obtain ⟨dot, us, rfl, hd, hus⟩ := hus.symbol
    obtain ⟨t', us, rfl, ht', rfl, h⟩ := hus.ofName
    exact h.eq_nil ▸ .super ht hd ht'
  | .lambda line parameters body, ts, he, hts => by
    obtain ⟨t, us, rfl, ht, rfl, hus⟩ := hts.onLine
    exact .lambda ht (hus.code he.1 fun _ h => spells_stmts body he.2 h)

theorem Expr.spells_all : ∀ (es : List (Expr Unit)), grammaticalExprs es →
    ∀ e ∈ es, ∀ {ts : List Token}, Marked e.marks ts → Spells ts (.expression .assignment e)
  | e :: rest, hes, e', he', ts, h => by
    rcases List.mem_cons.mp he' with heq | he'
    · rw [heq] at h ⊢
      exact (e.spells hes.1 h).loosen (Level.assignment_le _)
    · exact Expr.spells_all rest hes.2 e' he' h

/-- Tokens with the marks of a grammatical statement spell it. -/
theorem Stmt.spells : ∀ (s : Stmt Unit) {ts : List Token}, s.Grammatical → Marked s.marks ts →
    Stmt.Spelled ts s
  | .expression value, ts, hs, hts => by
    obtain ⟨us, vs, rfl, h, hvs⟩ := Marked.append hts
    obtain ⟨semicolon, vs, rfl, hsemicolon, hnil⟩ := hvs.symbol
    obtain rfl := hnil.eq_nil
    exact (Spells.expressionStatement ((value.spells hs h).loosen (Level.assignment_le _))
      hsemicolon).spelled
  | .print value, ts, hs, hts => by
    obtain ⟨word, us, rfl, hw, hus⟩ := hts.symbol
    obtain ⟨us, vs, rfl, h, hvs⟩ := hus.append
    obtain ⟨semicolon, vs, rfl, hsemicolon, hnil⟩ := hvs.symbol
    obtain rfl := hnil.eq_nil
    exact (Spells.print hw ((value.spells hs h).loosen (Level.assignment_le _)) hsemicolon).spelled
  | .block body, ts, hs, hts => by
    obtain ⟨opening, us, closing, rfl, ho, hc, h⟩ := hts.braced
    exact (Spells.blockStatement (.block ho (spells_stmts body hs h) hc)).spelled
  | .whileStmt condition body, ts, hs, hts => by
    obtain ⟨hcondition, hbody, hdeclared⟩ := hs
    obtain ⟨word, us, rfl, hw, hus⟩ := hts.symbol
    obtain ⟨us, vs, rfl, h, h'⟩ := hus.append
    have hcondition := h.condition fun _ h => condition.spells hcondition h
    exact (Spells.whileStmt hw hcondition ((body.spells hbody h').statement hdeclared)).spelled
  | .returnStmt line none, ts, _, hts => by
    obtain ⟨word, us, rfl, hw, rfl, hus⟩ := hts.onLine
    obtain ⟨semicolon, us, rfl, hsemicolon, hnil⟩ := hus.symbol
    obtain rfl := hnil.eq_nil
    exact (Spells.returnStmt hw .missing hsemicolon).spelled
  | .returnStmt line (some value), ts, hs, hts => by
    obtain ⟨word, us, rfl, hw, rfl, hus⟩ := hts.onLine
    obtain ⟨us, vs, rfl, h, hvs⟩ := hus.append
    obtain ⟨semicolon, vs, rfl, hsemicolon, hnil⟩ := hvs.symbol
    obtain rfl := hnil.eq_nil
    exact (Spells.returnStmt hw (.present ((value.spells hs h).loosen (Level.assignment_le _)))
      hsemicolon).spelled
  | .breakStmt line, ts, _, hts => by
    obtain ⟨word, us, rfl, hw, rfl, hus⟩ := hts.onLine
    obtain ⟨semicolon, us, rfl, hsemicolon, hnil⟩ := hus.symbol
    obtain rfl := hnil.eq_nil
    exact (Spells.breakStmt hw hsemicolon).spelled
  | .ifStmt condition thenBranch elifs elseBranch, ts, hs, hts => by
    obtain ⟨hcondition, ⟨hthen, hdeclared⟩, hopen, helifs, helse⟩ := hs
    obtain ⟨word, us, rfl, hw, hus⟩ := hts.symbol
    obtain ⟨us, zs, rfl, hus, h₄⟩ := hus.append
    obtain ⟨us, ys, rfl, hus, h₃⟩ := hus.append
    obtain ⟨us, xs, rfl, h₁, h₂⟩ := hus.append
    have hcondition := h₁.condition fun _ h => condition.spells hcondition h
    have hthen := (thenBranch.spells hthen h₂).statement hdeclared
    cases elseBranch with
    | none =>
      obtain rfl := h₄.eq_nil
      obtain ⟨isOpen, helifs, -⟩ := spells_elifs elifs false helifs h₃
      rw [List.append_nil]
      exact (Spells.ifStmt hw hcondition hthen helifs fun h => (hopen h).1).spelled
    | some s =>
      obtain ⟨otherwise, zs, rfl, ho, h₄⟩ := h₄.symbol
      obtain ⟨isOpen, helifs, hlast⟩ := spells_elifs elifs true helifs h₃
      rw [hlast rfl] at helifs
      have hclosed : thenBranch.endsOpen = false :=
        Bool.eq_false_iff.mpr fun h => nomatch (hopen h).2
      rw [hclosed] at hthen
      exact (Spells.ifElse hw hcondition hthen helifs ho
        ((s.spells helse.1 h₄).statement helse.2)).spelled
  | .var name none, ts, _, hts => by
    obtain ⟨word, us, rfl, hw, hus⟩ := hts.symbol
    obtain ⟨t, us, rfl, ht, rfl, hrest⟩ := hus.ofName
    obtain ⟨semicolon, us, rfl, hsemicolon, hnil⟩ := hrest.symbol
    obtain rfl := hnil.eq_nil
    exact (Spells.variableDecl (.plainVariable hw ht hsemicolon)).spelled_declaration nofun
  | .var name (some value), ts, hs, hts => by
    obtain ⟨word, us, rfl, hw, hus⟩ := hts.symbol
    obtain ⟨t, us, rfl, ht, rfl, hrest⟩ := hus.ofName
    obtain ⟨equal, us, rfl, hequal, hrest⟩ := hrest.symbol
    obtain ⟨us, vs, rfl, h, hvs⟩ := hrest.append
    obtain ⟨semicolon, vs, rfl, hsemicolon, hnil⟩ := hvs.symbol
    obtain rfl := hnil.eq_nil
    have hvalue := (value.spells hs h).loosen (Level.assignment_le _)
    have hspells := Spells.variableDecl (.initializedVariable hw ht hequal hvalue hsemicolon)
    exact hspells.spelled_declaration nofun
  | .functionDecl f, ts, hs, hts => by
    obtain ⟨word, us, rfl, hw, h⟩ := hts.symbol
    exact (Spells.functionDecl hw (f.spells hs h)).spelled_declaration nofun
  | .classDecl name superclass methods, ts, hs, hts => by
    obtain ⟨word, us, rfl, hw, hus⟩ := hts.symbol
    obtain ⟨t, us, rfl, ht, rfl, hrest⟩ := hus.ofName
    obtain ⟨us, vs, rfl, hparent, hvs⟩ := hrest.append
    obtain ⟨opening, vs, closing, rfl, ho, hc, hmethods⟩ := hvs.braced
    have hspells :=
      Spells.classDecl hw ht hparent.parent ho (spells_functions methods hs hmethods) hc
    exact hspells.spelled_declaration nofun

/-- In front of an `else`, the last branch is closed. -/
theorem spells_elifs : ∀ (branches : List (Elif Unit)) (beforeElse : Bool) {ts : List Token},
    grammaticalElifs beforeElse branches → Marked (elifMarks branches) ts →
      ∃ isOpen, Spells ts (.elifs branches isOpen) ∧ (beforeElse = true → isOpen = false)
  | [], _, ts, _, hts => ⟨false, hts.eq_nil ▸ .noElifs, fun _ => rfl⟩
  | .mk condition body :: rest, beforeElse, ts, hbranches, hts => by
    obtain ⟨hcondition, ⟨hbody, hdeclared⟩, hopen, hrest⟩ := hbranches
    obtain ⟨word, us, rfl, hw, hus⟩ := hts.symbol
    obtain ⟨us, ys, rfl, hus, h₃⟩ := hus.append
    obtain ⟨us, xs, rfl, h₁, h₂⟩ := hus.append
    obtain ⟨isOpen, hrest, hlast⟩ := spells_elifs rest beforeElse hrest h₃
    refine ⟨body.endsOpen || isOpen,
      .elifs hw (h₁.condition fun _ h => condition.spells hcondition h)
      ((body.spells hbody h₂).statement hdeclared) hrest fun h => (hopen h).1, fun hbefore => ?_⟩
    rw [hlast hbefore, Bool.or_false, Bool.eq_false_iff]
    intro h
    rw [(hopen h).2] at hbefore
    cases hbefore

/-- Tokens with the marks of a grammatical function spell it. -/
theorem Function.spells : ∀ (f : Function Unit) {ts : List Token}, f.Grammatical →
    Marked f.marks ts → Spells ts (.function f)
  | .mk name parameters body, ts, hf, hts => by
    obtain ⟨t, us, rfl, ht, rfl, hus⟩ := hts.ofName
    exact .function ht (hus.code hf.1 fun _ h => spells_stmts body hf.2 h)

theorem spells_functions : ∀ (fs : List (Function Unit)) {ts : List Token},
    grammaticalFunctions fs → Marked (functionMarks fs) ts → Spells ts (.methods fs)
  | [], ts, _, hts => hts.eq_nil ▸ .noMethods
  | f :: rest, ts, hfs, hts => by
    obtain ⟨us, vs, rfl, h, h'⟩ := Marked.append hts
    exact .methods (f.spells hfs.1 h) (spells_functions rest hfs.2 h')

/-- Tokens with the marks of a grammatical program spell it. -/
theorem spells_stmts : ∀ (body : List (Stmt Unit)) {ts : List Token}, grammaticalStmts body →
    Marked (stmtMarks body) ts → Spells ts (.declarations body)
  | [], ts, _, hts => hts.eq_nil ▸ .noDeclarations
  | s :: rest, ts, hbody, hts => by
    obtain ⟨us, vs, rfl, h, h'⟩ := Marked.append hts
    obtain ⟨isOpen, hs⟩ := (s.spells hbody.1 h).declaration
    exact .declarations hs (spells_stmts rest hbody.2 h')

end

/-- Every grammatical program is read back, tree by tree and without a mistake, from
tokens that spell it. -/
theorem Parse.ofTokens_spelling {program : Program Unit} (hp : grammaticalStmts program)
    {tokens : List Token} (ht : Marked (stmtMarks program) tokens) :
    Parse.ofTokens tokens = ⟨program, []⟩ :=
  Parse.ofTokens_of_spells (spells_stmts program hp ht)

/-- A choice between an assignment, with operators of two levels, and a call. -/
theorem Parse.ofTokens_spelling_choice :
    let name (x : String) : Name := ⟨x, 1⟩
    let var (x : String) : Expr Unit := .variable ⟨name x, ()⟩
    let value : Expr Unit := .binary (var "d") .subtract 1 (.binary (var "e") .multiply 1 (var "f"))
    let program : Program Unit := [.ifStmt (var "a") (.expression (.set (var "b") (name "c") value))
      [] (some (.print (.call (var "g") 1 [.literal (.string "h"), .literal (.boolean true)])))]
    let tokens := (Scan.ofSource "if (a) b.c = d - e * f; else print g(\"h\", true);").tokens
    grammaticalStmts program ∧ Marked (stmtMarks program) tokens ∧
      Parse.ofTokens tokens = ⟨program, []⟩ := by
  intro name var value program tokens
  have hp : grammaticalStmts program := by
    simp only [program, value, var, grammaticalStmts, Stmt.Grammatical, grammaticalElifs,
      grammaticalElse, Expr.Grammatical, grammaticalExprs]
    decide
  have ht : Marked (stmtMarks program) tokens := by
    unfold Marked
    decide +kernel
  exact ⟨hp, ht, Parse.ofTokens_spelling hp ht⟩

end ClassScript
