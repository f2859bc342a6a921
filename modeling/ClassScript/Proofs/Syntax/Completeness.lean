import ClassScript.Proofs.Syntax.Taking

/-!
# What is spelled is read

From tokens that are a derivation of a phrase, the rule for such phrases takes exactly
these tokens, reports nothing and yields the phrase, as long as the token behind them
cannot go on with it.

A rule that is nested up to a depth does its work on lists of fewer tokens than that
(`Rules.Complete`, `Rules.complete_ofDepth`).  So every derivation of a program is read
as that program (`Parse.ofTokens_of_spells`).
-/

namespace ClassScript

namespace Parser

/-- Rules that read what is spelled by fewer than `n` tokens, those behind it
included. -/
structure Rules.Complete (rules : Rules) (n : Nat) : Prop where
  bound : n ≤ rules.bound
  expression : ∀ {ts e r}, Spells ts (.expression .assignment e) → Level.assignment.Stops r →
    (ts ++ r).length < n → Takes rules.expression ts e r
  statement : ∀ {ts s isOpen r}, Spells ts (.statement s isOpen) → (isOpen = true → EndsChoice r) →
    (ts ++ r).length < n → Takes rules.statement ts s r
  declaration : ∀ {ts s isOpen r}, Spells ts (.declaration s isOpen) →
    (isOpen = true → EndsChoice r) → (ts ++ r).length < n →
    Takes rules.declaration ts (some s) r

/-- A rule that reads the expressions of a level that are spelled by at most `n` tokens,
those behind them included. -/
def ReadsLevel (n : Nat) (l : Level) (x : Parser (Expr Unit)) : Prop :=
  ∀ ts e r, Spells ts (.expression l e) → l.Stops r → (ts ++ r).length ≤ n → Takes x ts e r

/-- The level of a precedence. -/
def Precedence.level : Precedence → Level
  | factor => .factor
  | term => .term
  | comparison => .comparison
  | equality => .equality

/-- The operators of a level are those of the grammar. -/
theorem precedence_eq_iff {op : BinaryOp} {p : Precedence} :
    precedence op = p ↔ op.level = p.level := by
  cases op <;> cases p <;> decide

/-- A primary expression is read where an operand may start. -/
theorem primaryToken?_eq (t : Token) :
    primaryToken? t = if t.kind.startsOperand then some t else none := by
  unfold primaryToken?
  cases t.kind <;> rfl

theorem statementWord?_eq (t : Token) :
    statementWord? t = if t.kind.startsStatement then some t else none := by
  unfold statementWord?
  cases t.kind <;> rfl

namespace Rules.Complete

variable {rules : Rules} {n : Nat} (hr : rules.Complete n) {ts us r : List Token} {t : Token}
include hr

/-- An expression before a token that closes it. -/
theorem expressionBefore {e : Expr Unit} (h : Spells ts (.expression .assignment e))
    (ht : t.kind.closes = true) (hn : (ts ++ t :: r).length < n) :
    Takes rules.expression ts e (t :: r) :=
  hr.expression h (Level.stops_of_none (TokenKind.joins?_of_closes ht)) hn

/-! ### Blocks and functions -/

/-- Statements are read up to the end of their block. -/
theorem statements {body : List (Stmt Unit)} (h : Spells ts (.declarations body))
    (hend : EndsBlock r) (hn : (ts ++ r).length < n) (bound : Nat) (hbound : ts.length ≤ bound) :
    Takes (block.statements rules bound) ts body r := by
  generalize hp : Phrase.declarations body = p at h
  induction h generalizing body bound with
  | noDeclarations =>
    cases hp
    cases bound with
    | zero => exact .pure []
    | succ bound =>
      unfold block.statements
      cases r with
      | nil => exact .peek rfl (.pure [])
      | cons t us => exact .peek (k := some .rightBrace) (by simp [hend t us rfl]) (.pure [])
  | @declarations ts us s isOpen body hs hbody _ ih =>
    cases hp
    obtain ⟨t, rest, rfl, hbrace, -⟩ := hs.starts
    simp only [List.length_append, List.length_cons, List.cons_append] at hn hbound
    cases bound with
    | zero => omega
    | succ bound =>
      have hrest := ih (by simp only [List.length_append]; omega) bound (by omega) rfl
      have hfirst := hr.declaration hs (fun _ => hbody.endsChoice_of_declarations hend.endsChoice)
        (by simp only [List.length_append, List.length_cons]; omega)
      unfold block.statements
      refine .peek rfl ?_
      have hk : ((t :: rest ++ us ++ r).head?.map Token.kind) = some t.kind := rfl
      rw [hk]
      split
      · rename_i he
        cases he
      · rename_i he
        exact absurd (Option.some.inj he) hbrace
      · exact hfirst.bind (hrest.last rfl)
  | _ => cases hp

/-- A block is read up to its closing brace. -/
theorem block {closing : Token} {body : List (Stmt Unit)} (h : Spells ts (.declarations body))
    (hc : closing.kind = .rightBrace) (hn : (ts ++ closing :: r).length < n) :
    Takes (block rules) (ts ++ [closing]) body r := by
  have hend : EndsBlock (closing :: r) := by
    rintro _ _ ⟨⟩
    exact hc
  have hbound := hr.bound
  have hbody := hr.statements h hend hn rules.bound (by
    simp only [List.length_append] at hn
    omega)
  exact hbody.bind ((Takes.expect .blockEnd hc).last rfl)

/-- The parameters and the body of a function. -/
theorem code {α : Type} {names : List Name} {body : List (Stmt Unit)} (opening brace : Expectation)
    (f : List Name → List (Stmt Unit) → α) (h : Spells ts (.code names body))
    (hn : (ts ++ r).length < n + 1) :
    Takes (do
      let _ ← expect .leftParen opening
      let names ← parameters rules.bound
      let _ ← expect .leftBrace brace
      let body ← Parser.block rules
      return f names body) ts (f names body) r := by
  cases h with
  | @code open' closing ts us names body ho hnames hlength hc hblock =>
    cases hblock with
    | @block brace' closing' us body hb hbody hc' =>
      simp only [List.length_append, List.length_cons, List.cons_append] at hn
      have hparameters :=
        Takes.parameters (n := n) (r := brace' :: (us ++ [closing'] ++ r)) hc hnames
        hr.bound hlength (by simp only [List.length_append, List.length_cons]; omega)
      have hblock := hr.block (r := r) hbody hc'
        (by simp only [List.length_append, List.length_cons]; omega)
      rw [List.append_cons]
      exact .token (.expect opening ho) <| .bind (by simpa using hparameters) <|
        .token (.expect brace hb) <| hblock.last rfl

/-! ### Expressions -/

/-- A primary expression is read from the tokens that spell it. -/
theorem primary {e : Expr Unit} (h : Spells ts (.expression .primary e))
    (hn : (ts ++ r).length < n + 1) : Takes (primary rules) ts e r := by
  have hfirst {t : Token} {k : TokenKind} (ht : t.kind = k) (hk : k.startsOperand = true)
      (r : List Token) : Takes (take? primaryToken?) [t] (some t) r :=
    Takes.take?_some (by rw [primaryToken?_eq, ht, if_pos hk])
  unfold Parser.primary
  cases h with
  | falsity ht | truth ht | nil ht | this ht =>
    refine (hfirst ht rfl _).last ?_
    simp only [ht]
  | «variable» ht =>
    refine (hfirst ht rfl _).last ?_
    simp only [ht]
    rfl
  | literal ht =>
    rcases ht with ht | ht
    · refine (hfirst ht rfl _).last ?_
      simp only [ht]
    · refine (hfirst ht rfl _).last ?_
      simp only [ht]
  | super ht hd hm =>
    refine (hfirst ht rfl _).token ?_
    simp only [ht]
    exact .token (.expect _ hd) ((Takes.expectName _ hm).last rfl)
  | lambda ht hcode =>
    refine (hfirst ht rfl _).token ?_
    simp only [ht]
    refine hr.code _ _ (fun names body => Expr.lambda _ names body) hcode ?_
    simp only [List.length_append, List.length_cons] at hn ⊢
    omega
  | @grouping opening closing ts _ e ht he hc =>
    refine (hfirst ht rfl _).token ?_
    simp only [ht]
    refine (hr.expressionBefore (r := r) he (by rw [hc]; rfl) ?_).bind
      ((Takes.expect _ hc).last rfl)
    simp only [List.length_append, List.length_cons, List.length_nil] at hn ⊢
    omega
  | call hl | get hl | unary hl => exact absurd hl (by decide)
  | @binary _ _ _ _ op _ _ hl => exact absurd hl (by cases op <;> decide)
  | @logical _ _ _ _ op _ _ hl => exact absurd hl (by cases op <;> decide)

/-- Calls and properties are read as far as they go. -/
theorem callSuffixes {a e : Expr Unit} (h : Continued Suffix a ts e) (hstop : Level.call.Stops r)
    (bound : Nat) (hbound : (ts ++ r).length ≤ bound) (hn : (ts ++ r).length ≤ n) :
    Takes (callSuffixes rules bound a) ts e r := by
  induction h generalizing bound with
  | done a =>
    cases bound with
    | zero => exact .pure a
    | succ bound =>
      unfold Parser.callSuffixes
      refine .peek rfl ?_
      cases r with
      | nil => exact .pure a
      | cons t us =>
        have hk {k : TokenKind} (hk : k.joins? = some .call) : some t.kind ≠ some k := by
          intro he
          exact lt_irrefl _ (hstop t us rfl .call (by rw [Option.some.inj he, hk]))
        dsimp only [List.nil_append, List.head?_cons, Option.map_some]
        split
        · exact absurd ‹_› (hk rfl)
        · exact absurd ‹_› (hk rfl)
        · exact .pure a
  | @more a b e ts us hs hcont ih =>
    cases bound with
    | zero => cases hs <;> simp at hbound
    | succ bound =>
      unfold Parser.callSuffixes
      cases hs with
      | @call opening closing ts es ho hes hlength hc =>
        simp only [List.length_append, List.length_cons, List.cons_append] at hbound hn
        have hrest := ih bound (by simp only [List.length_append]; omega)
          (by simp only [List.length_append]; omega)
        have hitem : ∀ us e t vs, Spells us (.expression .assignment e) →
            t.kind = .comma ∨ t.kind = .rightParen → (us ++ t :: vs).length < n →
            Takes rules.expression us e (t :: vs) := by
          intro us e t vs he ht hlt
          refine hr.expressionBefore he ?_ hlt
          rcases ht with ht | ht <;> rw [ht] <;> rfl
        have hstart : ∀ us e, Spells us (.expression .assignment e) →
            ∃ t vs, us = t :: vs ∧ t.kind ≠ .rightParen := by
          intro us e he
          obtain ⟨t, vs, rfl, hk⟩ := StartsExpression.head he.starts
          exact ⟨t, vs, rfl, TokenKind.ne_of_startsExpression hk rfl⟩
        have harguments := Takes.parenthesized (r := us ++ r) .tooManyArguments .argumentsEnd hitem
          hstart hc hes.separated hr.bound hlength (by
            simp only [List.length_append, List.length_cons]; omega)
        refine .peek (k := some .leftParen) (by simp [ho]) ?_
        exact .token (.accept_some ho) (harguments.bind hrest)
      | @get dot name hd hname =>
        simp only [List.length_append, List.length_cons, List.cons_append] at hbound hn
        have hrest := ih bound (by simp only [List.length_append]; omega)
          (by simp only [List.length_append]; omega)
        refine .peek (k := some .dot) (by simp [hd]) ?_
        exact .token (.accept_some hd) (.token (.expectName _ hname) hrest)

theorem call : ReadsLevel n .call (call rules) := by
  intro ts e r h hstop hn
  obtain ⟨us, a, vs, rfl, ha, hcont⟩ := h.suffixes
  have hbound := hr.bound
  simp only [List.length_append] at hn
  exact (hr.primary ha (by simp only [List.length_append]; omega)).bind
    (hr.callSuffixes hcont hstop _ (by simp only [List.length_append]; omega)
      (by simp only [List.length_append]; omega))

/-- Operators are read with their operand. -/
theorem unary : ReadsLevel n .unary (unary rules) := by
  have hoperators : ∀ bound ts e r, Spells ts (.expression .unary e) → Level.unary.Stops r →
      (ts ++ r).length ≤ n → ts.length ≤ bound →
      Takes (unary.operators rules bound) ts e r := by
    intro bound
    induction bound with
    | zero =>
      intro ts e r h _ _ hbound
      obtain ⟨t, us, rfl, -⟩ := h.starts
      simp at hbound
    | succ bound ih =>
      intro ts e r h hstop hn hbound
      unfold unary.operators
      have hcall (h : Spells ts (.expression .call e)) :
          Takes (take? fun t => (UnaryOp.ofToken? t.kind).map fun op => (op, t.line)) [] none
            (ts ++ r) ∧ Takes (Parser.call rules) ts e r := by
        refine ⟨Takes.take?_none ?_, hr.call ts e r h (hstop.tighten (by decide)) hn⟩
        obtain ⟨t, us, rfl, hk, -⟩ := h.starts
        rintro _ _ ⟨⟩
        rcases hk with hk | ⟨hl, -⟩
        · revert hk
          cases t.kind <;> first | (intro hk; cases hk; done) | exact fun _ => rfl
        · exact absurd hl (by decide)
      rcases h.le_level.lt_or_eq with hlt | heq
      · obtain ⟨hnone, hoperand⟩ := hcall (h.relevel (by
          rw [Level.le_iff]
          rw [Level.lt_iff] at hlt
          exact hlt))
        exact .nothing hnone hoperand
      · cases h with
        | @unary t ts _ op operand _ ht hoperand =>
          have hop : UnaryOp.ofToken? t.kind = some op := by rw [ht, UnaryOp.ofToken?_token]
          simp only [List.length_append, List.length_cons, List.cons_append] at hn hbound
          refine .token (.take?_some (by rw [hop]; rfl)) ?_
          exact (ih ts operand r hoperand hstop (by simp only [List.length_append]; omega)
            (by omega)).last rfl
        | @binary _ _ _ _ op => cases op <;> cases heq
        | @logical _ _ _ _ op => cases op <;> cases heq
        | _ => cases heq
  intro ts e r h hstop hn
  have hbound := hr.bound
  refine hoperators rules.bound ts e r h hstop hn ?_
  simp only [List.length_append] at hn
  omega

omit hr in
/-- Operators of a level between operands of the next one. -/
theorem leftAssociative {l : Level} (hl : l.IsInfix) {bound : Nat} (hbound : n ≤ bound)
    {operator? : Token → Option (Expr Unit → Expr Unit → Expr Unit)}
    (hop : ∀ t join, operator? t = some join ↔ l.Joins t join)
    {operand : Parser (Expr Unit)} (ho : ReadsLevel n l.tighter operand) :
    ReadsLevel n l (leftAssociative operator? operand bound) := by
  have hfurther : ∀ {a e : Expr Unit} {ts : List Token}, Continued l.Step a ts e →
      ∀ (r : List Token) (bound : Nat), l.Stops r → (ts ++ r).length ≤ bound →
      (ts ++ r).length ≤ n →
      Takes (leftAssociative.further operator? operand bound a) ts e r := by
    intro a e ts h
    induction h with
    | done a =>
      intro r bound hstop _ _
      cases bound with
      | zero => exact .pure a
      | succ bound =>
        unfold leftAssociative.further
        refine .nothing (.take?_none fun t us ht => ?_) (.pure a)
        cases hj : operator? t with
        | none => rfl
        | some join => exact absurd (hstop t us ht l ((hop t join).mp hj).joins?) (lt_irrefl _)
    | @more a b e ts us hs hcont ih =>
      intro r bound hstop hbound hn
      cases hs with
      | @mk t ts join b hj hb =>
        simp only [List.length_append, List.length_cons, List.cons_append] at hbound hn
        cases bound with
        | zero => omega
        | succ bound =>
          have hrest := ih r bound hstop (by simp only [List.length_append]; omega)
            (by simp only [List.length_append]; omega)
          have hnext : l.tighter.Stops (us ++ r) := by
            cases hcont with
            | done => exact hstop.tighten hl.lt_tighter.le
            | more hs' =>
              cases hs' with
              | mk hj' => exact Level.stops_of_joins hl.lt_tighter hj'.joins?
          unfold leftAssociative.further
          refine .token (.take?_some ((hop t join).mpr hj)) (.bind ?_ hrest)
          exact ho ts b _ hb hnext (by simp only [List.length_append]; omega)
  intro ts e r h hstop hn
  obtain ⟨us, a, vs, rfl, ha, hcont⟩ := h.chain hl
  have hnext : l.tighter.Stops (vs ++ r) := by
    cases hcont with
    | done => exact hstop.tighten hl.lt_tighter.le
    | more hs' =>
      cases hs' with
      | mk hj' => exact Level.stops_of_joins hl.lt_tighter hj'.joins?
  simp only [List.length_append] at hn
  exact (ho us a _ ha hnext (by simp only [List.length_append]; omega)).bind
    (hfurther hcont _ _ hstop (by simp only [List.length_append]; omega)
      (by simp only [List.length_append]; omega))

omit hr in
theorem binaryAt_iff (p : Precedence) (t : Token) (join : Expr Unit → Expr Unit → Expr Unit) :
    binaryAt p t = some join ↔ p.level.Joins t join := by
  constructor
  · intro h
    unfold binaryAt at h
    split at h
    · cases h
    · rename_i op hop
      split at h
      · rename_i hp
        cases h
        exact .binary (precedence_eq_iff.mp hp) (BinaryOp.token_of_ofToken? hop).symm
      · cases h
  · intro h
    cases h with
    | binary hl ht =>
      simp [binaryAt, ht, BinaryOp.ofToken?_token, precedence_eq_iff.mpr hl]
    | @logical op hl ht => cases op <;> cases p <;> cases hl

omit hr in
theorem logicalAt_iff (op : LogicalOp) (t : Token) (join : Expr Unit → Expr Unit → Expr Unit) :
    logicalAt op t = some join ↔ op.level.Joins t join := by
  constructor
  · intro h
    unfold logicalAt at h
    split at h
    · rename_i ht
      cases h
      exact .logical rfl ht
    · cases h
  · intro h
    cases h with
    | @binary op' hl ht => cases op' <;> cases op <;> cases hl
    | @logical op' hl ht =>
      obtain rfl : op' = op := by cases op' <;> cases op <;> first | rfl | cases hl
      exact if_pos ht

/-- An expression is read up to a token that no operator level goes on with. -/
theorem disjunction : ReadsLevel n .disjunction (disjunction rules) := by
  have hbound := hr.bound
  have hfactor : ReadsLevel n .factor (factor rules) :=
    leftAssociative ⟨by decide, by decide⟩ hbound (binaryAt_iff .factor) hr.unary
  have hterm : ReadsLevel n .term (term rules) :=
    leftAssociative ⟨by decide, by decide⟩ hbound (binaryAt_iff .term) hfactor
  have hcomparison : ReadsLevel n .comparison (comparison rules) :=
    leftAssociative ⟨by decide, by decide⟩ hbound (binaryAt_iff .comparison) hterm
  have hequality : ReadsLevel n .equality (equality rules) :=
    leftAssociative ⟨by decide, by decide⟩ hbound (binaryAt_iff .equality) hcomparison
  have hconjunction : ReadsLevel n .conjunction (conjunction rules) :=
    leftAssociative ⟨by decide, by decide⟩ hbound (logicalAt_iff .and) hequality
  exact leftAssociative ⟨by decide, by decide⟩ hbound (logicalAt_iff .or) hconjunction

/-- An assignment is read to its end, with its target. -/
theorem assignment : ReadsLevel n .assignment (assignment rules) := by
  intro ts e r h hstop hn
  rcases h.le_level.lt_or_eq with hlt | heq
  · have hoperand : Spells ts (.expression .disjunction e) := h.relevel (Nat.succ_le_of_lt hlt)
    have hequal : Takes (accept .equal) [] none r := .accept_none fun t us ht he =>
      lt_irrefl _ (hstop t us ht .assignment (by rw [he]; rfl))
    exact (hr.disjunction ts e r hoperand (hstop.tighten (by decide)) hn).bind_nil
      (hequal.last rfl)
  · have hequal {t : Token} (ht : t.kind = .equal) (us : List Token) :
        Level.disjunction.Stops (t :: us) :=
      Level.stops_of_joins (show .assignment < Level.disjunction by decide) (by rw [ht]; rfl)
    cases h with
    | @assign t equal ts e ht he hvalue =>
      simp only [List.length_append, List.length_cons, List.cons_append] at hn
      have htarget := hr.disjunction [t] _ (equal :: (ts ++ r)) (.variable ht) (hequal he _)
        (by simp only [List.length_append, List.length_cons, List.length_nil]; omega)
      have hvalue := hr.expression hvalue hstop (by simp only [List.length_append]; omega)
      exact .token htarget <| .token (.accept_some he) <| .get fun _ => hvalue.last rfl
    | @set ts us dot name equal object value ho hd hname he hvalue =>
      simp only [List.length_append, List.length_cons] at hn
      have htarget := hr.disjunction (ts ++ [dot, name]) _ (equal :: (us ++ r))
        (.get (by decide) ho hd hname) (hequal he _)
        (by simp only [List.length_append, List.length_cons, List.length_nil]; omega)
      have hvalue := hr.expression hvalue hstop (by simp only [List.length_append]; omega)
      rw [show ts ++ dot :: name :: equal :: us = (ts ++ [dot, name]) ++ equal :: us by simp]
      exact htarget.bind <| .token (.accept_some he) <| .get fun _ => hvalue.last rfl
    | @binary _ _ _ _ op => cases op <;> cases heq
    | @logical _ _ _ _ op => cases op <;> cases heq
    | _ => cases heq

/-! ### Statements -/

omit hr in
theorem expressionStatement {x : Parser (Expr Unit)} {e : Expr Unit}
    (hx : Takes x ts e (t :: r)) (ht : t.kind = .semicolon) :
    Takes (expressionStatement x) (ts ++ [t]) (.expression e) r :=
  hx.bind ((Takes.expect _ ht).last rfl)

theorem condition {e : Expr Unit} (opening closing : Expectation) (h : Spells ts (.condition e))
    (hn : (ts ++ r).length ≤ n) : Takes (condition rules opening closing) ts e r := by
  cases h with
  | @condition paren paren' ts e ho he hc =>
    simp only [List.length_append, List.length_cons, List.cons_append] at hn
    have hexpression := hr.expressionBefore (r := r) he (by rw [hc]; rfl)
      (by simp only [List.length_append, List.length_cons]; omega)
    exact .token (.expect _ ho) (hexpression.bind ((Takes.expect _ hc).last rfl))

/-- A part that may be left out is read if it is there. -/
theorem optional {kind : TokenKind} {e : Option (Expr Unit)} (h : Spells ts (.optional e))
    (ht : t.kind = kind) (hk : kind.closes = true) (hn : (ts ++ t :: r).length < n) :
    Takes (unlessNext kind rules.expression) ts e (t :: r) := by
  cases h with
  | missing => exact .nothing (.nextIs (c := true) (by simp [ht])) (.pure none)
  | present he =>
    obtain ⟨first, us, rfl, hfirst⟩ := StartsExpression.head he.starts
    have hne : first.kind ≠ kind :=
      TokenKind.ne_of_startsExpression hfirst (TokenKind.startsExpression_of_closes hk)
    exact .nothing (.nextIs (c := false) (by simp [hne]))
      ((hr.expressionBefore he (by rw [ht, hk]) hn).last rfl)

/-- A declaration of a variable is read behind `var`. -/
theorem varDeclaration {name : Name} {e : Option (Expr Unit)}
    (h : Spells ts (.variable name e)) (hn : (ts ++ r).length ≤ n) :
    ∃ word us, ts = word :: us ∧ word.kind = .varKw ∧
      Takes (varDeclaration rules) us (.var name e) r := by
  cases h with
  | @plainVariable word name semicolon hword hname hs =>
    have hequal : Takes (accept .equal) [] none (semicolon :: r) := .accept_none fun t us ht => by
      cases ht
      rw [hs]
      decide
    refine ⟨word, _, rfl, hword, .token (.expectName _ hname) ?_⟩
    exact .nothing hequal (.nothing (.pure none) ((Takes.expect _ hs).last rfl))
  | @initializedVariable word name equal semicolon ts e hword hname he hvalue hs =>
    simp only [List.length_append, List.length_cons, List.cons_append] at hn
    have hvalue := hr.expressionBefore (r := r) hvalue (by rw [hs]; rfl)
      (by simp only [List.length_append, List.length_cons]; omega)
    refine ⟨word, _, rfl, hword, .token (.expectName _ hname) ?_⟩
    exact .token (.accept_some he) (.bind (hvalue.last rfl) ((Takes.expect _ hs).last rfl))

theorem forInitializer {start : Option (Stmt Unit)} (h : Spells ts (.initializer start))
    (hn : (ts ++ r).length < n) : Takes (forInitializer rules) ts start r := by
  cases h with
  | @noInitializer semicolon hs =>
    refine .peek (k := some .semicolon) (by simp [hs]) ?_
    exact (Takes.accept_some hs).last rfl
  | variableInitializer hvariable =>
    obtain ⟨word, us, rfl, hword, hus⟩ := hr.varDeclaration hvariable hn.le
    refine .peek (k := some .varKw) (by simp [hword]) ?_
    exact .token (.accept_some hword) (hus.last rfl)
  | @expressionInitializer ts semicolon e he hs =>
    obtain ⟨first, us, rfl, hfirst⟩ := StartsExpression.head he.starts
    simp only [List.append_assoc, List.cons_append, List.nil_append] at hn
    have hexpression := hr.expressionBefore (t := semicolon) (r := r) he (by rw [hs]; rfl) hn
    have hstatement := (expressionStatement hexpression hs).last
      (f := fun s => Pure.pure (some s)) rfl
    refine .peek (k := some first.kind) rfl ?_
    split
    · exact absurd (Option.some.inj ‹_›) (TokenKind.ne_of_startsExpression hfirst rfl)
    · exact absurd (Option.some.inj ‹_›) (TokenKind.ne_of_startsExpression hfirst rfl)
    · exact hstatement

theorem forStatement {opening semicolon closing : Token} {ts us vs ws : List Token}
    {start : Option (Stmt Unit)} {c step : Option (Expr Unit)} {s : Stmt Unit} {isOpen : Bool}
    (ho : opening.kind = .leftParen) (hstart : Spells ts (.initializer start))
    (hc : Spells us (.optional c)) (hsemicolon : semicolon.kind = .semicolon)
    (hstep : Spells vs (.optional step)) (hclosing : closing.kind = .rightParen)
    (hs : Spells ws (.statement s isOpen)) (hopen : isOpen = true → EndsChoice r)
    (hn : (opening :: (ts ++ us ++ semicolon :: (vs ++ closing :: ws)) ++ r).length ≤ n) :
    Takes (forStatement rules) (opening :: (ts ++ us ++ semicolon :: (vs ++ closing :: ws)))
      (.forLoop start c step s) r := by
  simp only [List.length_append, List.length_cons, List.cons_append] at hn
  have hinitializer := hr.forInitializer
    (r := us ++ semicolon :: (vs ++ closing :: ws) ++ r) hstart
    (by simp only [List.length_append, List.length_cons]; omega)
  have hcondition := hr.optional (r := vs ++ closing :: ws ++ r) hc hsemicolon rfl
    (by simp only [List.length_append, List.length_cons]; omega)
  have hincrement := hr.optional (r := ws ++ r) hstep hclosing rfl
    (by simp only [List.length_append, List.length_cons]; omega)
  have hbody := hr.statement hs hopen (by simp only [List.length_append]; omega)
  rw [List.append_assoc ts]
  exact .token (.expect _ ho) <| hinitializer.bind <| hcondition.bind <|
    .token (.expect _ hsemicolon) <| (by simpa using hincrement : Takes _ _ _ _).bind <|
      .token (.expect _ hclosing) <| hbody.last rfl

/-- All branches are read, when no further one follows. -/
theorem elifBranches {branches : List (Elif Unit)} {isOpen : Bool}
    (h : Spells ts (.elifs branches isOpen)) (hopen : isOpen = true → EndsChoice r)
    (helif : ∀ t us, r = t :: us → t.kind ≠ .elifKw) (hn : (ts ++ r).length < n) (bound : Nat)
    (hbound : ts.length ≤ bound) : Takes (elifBranches rules bound) ts branches r := by
  generalize hp : Phrase.elifs branches isOpen = p at h
  induction h generalizing branches isOpen bound with
  | noElifs =>
    cases hp
    cases bound with
    | zero => exact .pure []
    | succ bound => exact .nothing (.accept_none helif) (.pure [])
  | @elifs word ts us vs c s branches firstOpen lastOpen hword hc hs hbranches himp _ _ ih =>
    cases hp
    simp only [List.length_append, List.length_cons, List.cons_append] at hn hbound
    cases bound with
    | zero => omega
    | succ bound =>
      have hnext : firstOpen = true → EndsChoice (vs ++ r) := by
        intro hfirst
        obtain rfl := himp hfirst
        obtain ⟨rfl, -⟩ := hbranches.eq_nil_of_elifs
        exact hopen (by simp [hfirst])
      have hcondition := hr.condition (r := us ++ vs ++ r) .elifCondition .elifConditionEnd hc
        (by simp only [List.length_append]; omega)
      have hstatement := hr.statement hs hnext (by simp only [List.length_append]; omega)
      have hrest := ih (fun hlast => hopen (by simp [hlast]))
        (by simp only [List.length_append]; omega) bound (by omega) rfl
      rw [List.append_assoc]
      exact .token (.accept_some hword) <| hcondition.bind <| hstatement.bind <| hrest.last rfl
  | _ => cases hp

/-- A choice without an `else` is read, when no other one follows. -/
theorem ifStatement {us vs : List Token} {c : Expr Unit} {s : Stmt Unit}
    {branches : List (Elif Unit)} {isOpen lastOpen : Bool} (hc : Spells ts (.condition c))
    (hs : Spells us (.statement s isOpen)) (hbranches : Spells vs (.elifs branches lastOpen))
    (himp : isOpen = true → branches = []) (hend : EndsChoice r)
    (hn : (ts ++ us ++ vs ++ r).length < n) :
    Takes (ifStatement rules) (ts ++ us ++ vs) (.ifStmt c s branches none) r := by
  have hbound := hr.bound
  simp only [List.length_append] at hn
  have hnext : isOpen = true → EndsChoice (vs ++ r) := by
    intro hopen
    obtain rfl := himp hopen
    obtain ⟨rfl, -⟩ := hbranches.eq_nil_of_elifs
    exact hend
  have hcondition := hr.condition (r := us ++ vs ++ r) .ifCondition .ifConditionEnd hc
    (by simp only [List.length_append]; omega)
  have hstatement := hr.statement hs hnext (by simp only [List.length_append]; omega)
  have helifs := hr.elifBranches hbranches (fun _ => hend) (fun t us ht => (hend t us ht).1)
    (by simp only [List.length_append]; omega) rules.bound (by omega)
  have helse : Takes (accept .elseKw) [] none r := .accept_none fun t us ht => (hend t us ht).2
  rw [List.append_assoc]
  exact hcondition.bind <| hstatement.bind <| helifs.bind_nil <| .nothing helse <|
    .nothing (.pure none) (.pure _)

/-- An `else` is read with the closest choice that is open. -/
theorem ifElse {us vs ws : List Token} {otherwise : Token} {c : Expr Unit} {s s' : Stmt Unit}
    {branches : List (Elif Unit)} {isOpen : Bool} (hc : Spells ts (.condition c))
    (hs : Spells us (.statement s false)) (hbranches : Spells vs (.elifs branches false))
    (hotherwise : otherwise.kind = .elseKw) (hs' : Spells ws (.statement s' isOpen))
    (hopen : isOpen = true → EndsChoice r)
    (hn : (ts ++ us ++ vs ++ otherwise :: ws ++ r).length < n) :
    Takes (Parser.ifStatement rules) (ts ++ us ++ vs ++ otherwise :: ws)
      (.ifStmt c s branches (some s')) r := by
  have hbound := hr.bound
  simp only [List.length_append, List.length_cons] at hn
  have hcondition := hr.condition (r := us ++ (vs ++ otherwise :: ws) ++ r) .ifCondition
    .ifConditionEnd hc (by simp only [List.length_append, List.length_cons]; omega)
  have hstatement := hr.statement (r := vs ++ otherwise :: ws ++ r) hs nofun
    (by simp only [List.length_append, List.length_cons]; omega)
  have helifs := hr.elifBranches (r := otherwise :: ws ++ r) hbranches nofun
    (by rintro _ _ ⟨⟩; rw [hotherwise]; decide)
    (by simp only [List.length_append, List.length_cons, List.cons_append]; omega)
    rules.bound (by omega)
  have hlast := hr.statement hs' hopen (by simp only [List.length_append]; omega)
  rw [List.append_assoc, List.append_assoc]
  exact hcondition.bind <| hstatement.bind <| helifs.bind <|
    .token (.accept_some hotherwise) <| .bind_nil (hlast.last rfl) (.pure _)

/-- A statement is read from the tokens that spell it. -/
theorem statementBody {s : Stmt Unit} {isOpen : Bool} (h : Spells ts (.statement s isOpen))
    (hopen : isOpen = true → EndsChoice r) (hn : (ts ++ r).length ≤ n) :
    Takes (Parser.statement rules) ts s r := by
  have hword {t : Token} {k : TokenKind} (ht : t.kind = k) (hk : k.startsStatement = true)
      (r : List Token) : Takes (take? statementWord?) [t] (some t) r :=
    .take?_some (by rw [statementWord?_eq, ht, if_pos hk])
  unfold Parser.statement
  cases h with
  | @expressionStatement ts semicolon e he hs =>
    obtain ⟨first, us, rfl, hfirst⟩ := StartsExpression.head he.starts
    have hnone : Takes (take? statementWord?) [] none (first :: us ++ [semicolon] ++ r) :=
      .take?_none fun t us ht => by
        cases ht
        rw [statementWord?_eq, TokenKind.startsStatement_of_startsExpression hfirst]
        rfl
    rw [List.append_assoc] at hn
    have hexpression := hr.assignment _ e (semicolon :: r) he
      (Level.stops_of_none (by rw [hs]; rfl)) hn
    exact .nothing hnone (expressionStatement hexpression hs)
  | @print word semicolon ts e hw he hs =>
    simp only [List.length_append, List.length_cons, List.cons_append] at hn
    have hexpression := hr.expressionBefore (r := r) he (by rw [hs]; rfl)
      (by simp only [List.length_append, List.length_cons]; omega)
    refine (hword hw rfl _).token ?_
    simp only [hw]
    exact hexpression.bind ((Takes.expect _ hs).last rfl)
  | @returnStmt word semicolon ts e hw he hs =>
    simp only [List.length_append, List.length_cons, List.cons_append] at hn
    have hexpression := hr.optional (r := r) he hs rfl
      (by simp only [List.length_append, List.length_cons]; omega)
    refine (hword hw rfl _).token ?_
    simp only [hw]
    exact hexpression.bind ((Takes.expect _ hs).last rfl)
  | breakStmt hw hs =>
    refine (hword hw rfl _).token ?_
    simp only [hw]
    exact (Takes.expect _ hs).last rfl
  | @whileStmt word ts us c s _ hw hc hs =>
    simp only [List.length_append, List.length_cons, List.cons_append] at hn
    have hcondition := hr.condition (r := us ++ r) .whileCondition .whileConditionEnd hc
      (by simp only [List.length_append]; omega)
    have hstatement := hr.statement hs hopen (by simp only [List.length_append]; omega)
    refine (hword hw rfl _).token ?_
    simp only [hw]
    exact hcondition.bind (hstatement.last rfl)
  | forLoop hw ho hstart hc hsemicolon hstep hclosing hs =>
    refine (hword hw rfl _).token ?_
    simp only [hw]
    exact hr.forStatement ho hstart hc hsemicolon hstep hclosing hs hopen (Nat.le_of_succ_le hn)
  | ifStmt hw hc hs hbranches himp =>
    refine (hword hw rfl _).token ?_
    simp only [hw]
    exact hr.ifStatement hc hs hbranches himp (hopen rfl) hn
  | ifElse hw hc hs hbranches hotherwise hs' =>
    refine (hword hw rfl _).token ?_
    simp only [hw]
    exact hr.ifElse hc hs hbranches hotherwise hs' hopen hn
  | blockStatement hblock =>
    cases hblock with
    | @block opening closing ts body ho hbody hc =>
      simp only [List.length_append, List.length_cons, List.cons_append] at hn
      have hblock := hr.block (r := r) hbody hc
        (by simp only [List.length_append, List.length_cons]; omega)
      refine (hword ho rfl _).token ?_
      simp only [ho]
      exact hblock.last rfl

/-! ### Declarations -/

/-- A function is read from the tokens that spell it. -/
theorem function {f : Function Unit} (kind : FunctionKind) (h : Spells ts (.function f))
    (hn : (ts ++ r).length ≤ n) : Takes (function rules kind) ts f r := by
  cases h with
  | function hname hcode =>
    simp only [List.length_append, List.length_cons, List.cons_append] at hn
    exact .token (.expectName _ hname) <| hr.code _ _ (Function.mk _) hcode
      (by simp only [List.length_append]; omega)

/-- Methods are read up to the closing brace of their class. -/
theorem methods {fs : List (Function Unit)} {closing : Token} (h : Spells ts (.methods fs))
    (hc : closing.kind = .rightBrace) (hn : (ts ++ closing :: r).length < n) (bound : Nat)
    (hbound : ts.length ≤ bound) : Takes (methods rules bound) ts fs (closing :: r) := by
  generalize hp : Phrase.methods fs = p at h
  induction h generalizing fs bound with
  | noMethods =>
    cases hp
    cases bound with
    | zero => exact .pure []
    | succ bound => exact .peek (k := some .rightBrace) (by simp [hc]) (.pure [])
  | @methods ts us f fs hf _ _ ih =>
    cases hp
    obtain ⟨t, rest, rfl, ht⟩ := hf.function_head
    simp only [List.length_append, List.length_cons, List.cons_append] at hn hbound
    cases bound with
    | zero => omega
    | succ bound =>
      have hfirst := hr.function (r := us ++ closing :: r) .method hf
        (by simp only [List.length_append, List.length_cons]; omega)
      have hrest :=
        ih (by simp only [List.length_append, List.length_cons]; omega) bound (by omega) rfl
      exact .peek (k := some .identifier) (by simp [ht]) (hfirst.bind (hrest.last rfl))
  | _ => cases hp

omit hr in
theorem superclass {parent : Option (Reference Unit)} {brace : Token}
    (h : Spells ts (.superclass parent)) (hb : brace.kind = .leftBrace) :
    Takes superclass ts parent (brace :: r) := by
  cases h with
  | noSuperclass =>
    exact .nothing (.accept_none fun t us ht => by cases ht; rw [hb]; decide) (.pure none)
  | superclass hless hname =>
    exact .token (.accept_some hless) ((Takes.expectName _ hname).last rfl)

/-- A declaration is read from the tokens that spell it. -/
theorem declarationBody {s : Stmt Unit} {isOpen : Bool} (h : Spells ts (.declaration s isOpen))
    (hopen : isOpen = true → EndsChoice r) (hn : (ts ++ r).length ≤ n) :
    Takes (declarationBody rules) ts s r := by
  unfold Parser.declarationBody
  cases h with
  | @functionDecl word ts f hw hf =>
    obtain ⟨t, rest, rfl, ht⟩ := hf.function_head
    simp only [List.length_append, List.length_cons, List.cons_append] at hn
    have hfunction := hr.function (r := r) .function hf
      (by simp only [List.length_append, List.length_cons]; omega)
    refine .nothing (.nextIsFunction_true hw ht) ?_
    exact .token (.accept_some hw) (hfunction.last rfl)
  | @classDecl word name opening closing ts us parent fs hw hname hparent ho hfs hc =>
    simp only [List.length_append, List.length_cons, List.cons_append] at hn
    have hbound := hr.bound
    have hmethods := hr.methods (r := r) hfs hc
      (by simp only [List.length_append, List.length_cons]; omega) rules.bound (by omega)
    refine .nothing (.nextIsFunction_of_head fun hfun => nomatch hw.symm.trans hfun) ?_
    refine .peek (k := some .classKw) (by simp [hw]) ?_
    refine .token (.accept_some hw) ?_
    exact .token (.expectName _ hname) <| (superclass hparent ho).bind <|
      .token (.expect _ ho) <| (by simpa using hmethods : Takes _ _ _ _).bind <|
        (Takes.expect _ hc).last rfl
  | variableDecl hvariable =>
    obtain ⟨word, us, rfl, hw, hus⟩ := hr.varDeclaration hvariable hn
    refine .nothing (.nextIsFunction_of_head fun hfun => nomatch hw.symm.trans hfun) ?_
    refine .peek (k := some .varKw) (by simp [hw]) ?_
    exact .token (.accept_some hw) hus
  | statementDecl hs =>
    have hstatement := hr.statementBody hs hopen hn
    obtain ⟨first, us, rfl, hclass, hvar, hfun⟩ := StartsStatement.head hs.starts
    refine .nothing (.nextIsFunction_of_head fun hk => ?_) (.peek (k := some first.kind) rfl ?_)
    · obtain ⟨u, ws, rfl, hu⟩ := hfun hk
      exact ⟨u, ws ++ r, rfl, hu⟩
    split
    · exact absurd (Option.some.inj ‹_›) hclass
    · exact absurd (Option.some.inj ‹_›) hvar
    · exact hstatement

/-- A declaration that is spelled is not given up. -/
theorem declarationOrSkip {s : Stmt Unit} {isOpen : Bool} (h : Spells ts (.declaration s isOpen))
    (hopen : isOpen = true → EndsChoice r) (hn : (ts ++ r).length ≤ n) :
    Takes (Parser.declaration rules) ts (some s) r := by
  intro mistakes
  unfold Parser.declaration
  rw [hr.declarationBody h hopen hn]

/-- A program is read from the tokens that spell it. -/
theorem program {body : List (Stmt Unit)} (h : Spells ts (.declarations body))
    (hn : ts.length < n) (bound : Nat) (hbound : ts.length ≤ bound) :
    Takes (program rules bound) ts body [] := by
  generalize hp : Phrase.declarations body = p at h
  induction h generalizing body bound with
  | noDeclarations =>
    cases hp
    cases bound with
    | zero => exact .pure []
    | succ bound => exact .peek rfl (.pure [])
  | @declarations ts us s isOpen body hs hbody _ ih =>
    cases hp
    obtain ⟨t, rest, rfl, -⟩ := hs.starts
    simp only [List.length_append, List.length_cons, List.cons_append] at hn hbound
    cases bound with
    | zero => omega
    | succ bound =>
      have hrest := ih (by omega) bound (by omega) rfl
      have hend : EndsBlock [] := fun t us ht => by cases ht
      have hfirst := hr.declaration hs (fun _ => hbody.endsChoice_of_declarations hend.endsChoice)
        (by simp only [List.length_append, List.length_cons, List.length_nil]; omega)
      exact .peek rfl (hfirst.bind (hrest.last rfl))
  | _ => cases hp

end Rules.Complete

/-- Rules that are nested up to a depth read what is spelled by fewer tokens. -/
theorem Rules.complete_ofDepth : ∀ depth, (Rules.ofDepth depth).Complete depth
  | 0 => ⟨le_rfl, fun _ _ h => absurd h (Nat.not_lt_zero _),
      fun _ _ h => absurd h (Nat.not_lt_zero _),
      fun _ _ h => absurd h (Nat.not_lt_zero _)⟩
  | depth + 1 =>
    have hr := complete_ofDepth depth
    { bound := le_rfl
      expression := fun h hstop hn => hr.assignment _ _ _ h hstop (Nat.le_of_lt_succ hn)
      statement := fun h hopen hn => hr.statementBody h hopen (Nat.le_of_lt_succ hn)
      declaration := fun h hopen hn => hr.declarationOrSkip h hopen (Nat.le_of_lt_succ hn) }

end Parser

/-- A derivation of a program is read as that program. -/
theorem Parse.ofTokens_of_spells {tokens : List Token} {program : Program Unit}
    (h : Spells tokens (.declarations program)) : Parse.ofTokens tokens = ⟨program, []⟩ := by
  have hr := Parser.Rules.complete_ofDepth (tokens.length + 1)
  have htakes := hr.program h (Nat.lt_succ_self _) _ le_rfl []
  rw [List.append_nil] at htakes
  unfold Parse.ofTokens
  dsimp only
  rw [htakes]

end ClassScript
