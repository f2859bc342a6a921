import ClassScript.Proofs.Syntax.Legal
import ClassScript.Proofs.Token.Lines
import ClassScript.Syntax.Reading

/-!
# Programs that are read are legal

A word that is spelled like a keyword is no name, so no name in a program text is
`this` or `super`.  The grammar puts declarations only where they are allowed.
Together that makes every program that is read from a text legal
(`Reading.legal`), whatever mistakes the text may have.
-/

namespace ClassScript

/-- A token that is a name may be declared. -/
def Token.Proper (t : Token) : Prop := t.kind = .identifier → Name.Ordinary ⟨t.text, t.line⟩

namespace Parser

/-- From proper tokens, a rule yields results with the property `P` and leaves
proper tokens, also when it gives up. -/
def Yields {α : Type} (x : Parser α) (P : α → Prop) : Prop :=
  ∀ s : ParseState, (∀ t ∈ s.rest, t.Proper) →
    match x s with
    | .ok a s' => P a ∧ ∀ t ∈ s'.rest, t.Proper
    | .error _ s' => ∀ t ∈ s'.rest, t.Proper

/-! ## Rules -/

theorem bind_apply {α β : Type} (x : Parser α) (f : α → Parser β) (s : ParseState) :
    (x >>= f) s =
      match x s with
      | .ok a s' => f a s'
      | .error e s' => .error e s' := by
  cases h : x s <;> simp [bind, EStateM.bind, h]

namespace Yields

variable {α β : Type} {P : α → Prop} {Q : β → Prop}

theorem pure {a : α} (ha : P a) : Yields (pure a) P := fun _ hs => ⟨ha, hs⟩

theorem throw : Yields (throw () : Parser α) P := fun _ hs => hs

/-- What the first step yields may be used in what the second one yields. -/
theorem bind {x : Parser α} {f : α → Parser β} (hx : Yields x P)
    (hf : ∀ a, P a → Yields (f a) Q) : Yields (x >>= f) Q := by
  intro s hs
  have h := hx s hs
  rw [bind_apply]
  cases hr : x s with
  | ok a s' =>
    rw [hr] at h
    exact hf a h.1 s' h.2
  | error e s' =>
    rw [hr] at h
    exact h

/-- A property of what a rule yields may be weakened. -/
theorem imp {x : Parser α} {P' : α → Prop} (hx : Yields x P) (h : ∀ a, P a → P' a) :
    Yields x P' := by
  intro s hs
  have hr := hx s hs
  cases hx' : x s with
  | ok a s' =>
    rw [hx'] at hr
    exact ⟨h a hr.1, hr.2⟩
  | error e s' =>
    rw [hx'] at hr
    exact hr

theorem map {x : Parser α} {f : α → β} (hx : Yields x fun a => Q (f a)) : Yields (f <$> x) Q :=
  hx.bind fun _ ha => .pure ha

theorem reportAt (left : Nat) (error : SyntaxError) :
    Yields (reportAt left error) fun _ => True :=
  fun _ hs => ⟨trivial, hs⟩

theorem report (error : SyntaxError) : Yields (report error) fun _ => True :=
  fun _ hs => ⟨trivial, hs⟩

/-- A rule that gives up leaves its tokens proper and yields nothing. -/
theorem giveUp (what : Expectation) : Yields (giveUp what) P :=
  (report _).bind fun _ _ => throw

theorem peek : Yields peek fun _ => True := fun _ hs => ⟨trivial, hs⟩

theorem nextIs (kind : TokenKind) : Yields (nextIs kind) fun _ => True :=
  peek.bind fun _ _ => .pure trivial

/-- A token that is taken is proper, and so are those behind it. -/
theorem take? {select : Token → Option α} (h : ∀ t a, t.Proper → select t = some a → P a) :
    Yields (take? select) fun o => ∀ a ∈ o, P a := by
  intro s hs
  obtain ⟨rest, mistakes⟩ := s
  cases rest with
  | nil => exact ⟨nofun, hs⟩
  | cons t rest =>
    unfold Parser.take?
    dsimp only
    cases ht : select t with
    | none => exact ⟨nofun, hs⟩
    | some a =>
      refine ⟨fun b hb => ?_, fun t' ht' => hs t' (List.mem_cons_of_mem _ ht')⟩
      obtain rfl := Option.some.inj hb
      exact h t _ (hs t (List.mem_cons_self ..)) ht

/-- A token that is accepted has the kind that was asked for. -/
theorem accept (kind : TokenKind) :
    Yields (accept kind) fun o => ∀ t ∈ o, t.kind = kind ∧ t.Proper := by
  refine take? fun t a ht ha => ?_
  split at ha
  · rename_i hk
    cases ha
    exact ⟨hk, ht⟩
  · cases ha

/-- A rule that asks for a kind of token yields one, or gives up. -/
theorem expect (kind : TokenKind) (what : Expectation) :
    Yields (expect kind what) fun t => t.kind = kind ∧ t.Proper := by
  refine (accept kind).bind fun o ho => ?_
  cases o with
  | none => exact giveUp what
  | some t => exact .pure (ho t rfl)

/-- A step whose value does not matter. -/
theorem skip {x : Parser α} {y : Parser β} (hx : Yields x P) (hy : Yields y Q) :
    Yields (x >>= fun _ => y) Q :=
  hx.bind fun _ _ => hy

/-- A name that is read may be declared. -/
theorem expectName (what : Expectation) : Yields (expectName what) Name.Ordinary :=
  (expect .identifier what).bind fun _ ht => .pure (ht.2 ht.1)

/-- A step before which a mistake may be reported. -/
theorem reportIf {c : Prop} [Decidable c] {x : Parser α} (error : SyntaxError) (hx : Yields x P) :
    Yields (if c then Parser.report error >>= fun _ => x else x) P := by
  split
  · exact (report error).skip hx
  · exact hx

/-! ### Lists -/

/-- What holds of every item holds of all items of a list. -/
theorem separated {tooMany : SyntaxError} {item : Parser α} (hi : Yields item P) :
    ∀ bound count, Yields (separated tooMany item bound count) fun items => ∀ a ∈ items, P a
  | 0, _ => .pure nofun
  | bound + 1, count => by
    unfold Parser.separated
    refine .reportIf tooMany (hi.bind fun first hfirst => (accept .comma).bind fun o _ => ?_)
    cases o with
    | none => exact .pure fun a ha => List.mem_singleton.mp ha ▸ hfirst
    | some _ =>
      refine (separated hi bound (count + 1)).bind fun items hitems => .pure fun a ha => ?_
      rcases List.mem_cons.mp ha with rfl | ha
      · exact hfirst
      · exact hitems a ha

/-- It holds of all items in parentheses, also if there are none. -/
theorem parenthesized {tooMany : SyntaxError} {ending : Expectation} {item : Parser α}
    (hi : Yields item P) (bound : Nat) :
    Yields (parenthesized tooMany ending item bound) fun r => ∀ a ∈ r.1, P a := by
  have hitems : ∀ items : List α, (∀ a ∈ items, P a) →
      Yields (Parser.expect .rightParen ending >>= fun paren => Pure.pure (items, paren.line))
        fun r => ∀ a ∈ r.1, P a :=
    fun items h => (expect .rightParen ending).bind fun _ _ => .pure h
  refine (nextIs .rightParen).bind fun closed _ => ?_
  split
  · have hnil : Yields (Pure.pure [] : Parser (List α)) fun items => ∀ a ∈ items, P a :=
      .pure nofun
    exact hnil.bind hitems
  · exact (separated hi bound 0).bind hitems

/-- Parameters may be declared. -/
theorem parameters (bound : Nat) :
    Yields (parameters bound) fun names => ∀ p ∈ names, p.Ordinary :=
  (parenthesized (expectName _) bound).bind fun _ h => .pure h

end Yields

/-! ## Two kinds of declarations -/

/-- Whether tokens start with `fun` and the name of a function. -/
def StartsFunction (tokens : List Token) : Prop :=
  ∃ t t' rest, tokens = t :: t' :: rest ∧ t.kind = .funKw ∧ t'.kind = .identifier

/-- Reads a declaration that does not start with the name of a function behind its keyword. -/
def otherDeclaration (rules : Rules) : Parser (Stmt Unit) := do
  match ← peek with
  | some .classKw =>
    let _ ← accept .classKw
    classDeclaration rules
  | some .varKw =>
    let _ ← accept .varKw
    varDeclaration rules
  | _ => statement rules

/-- Behind `fun`, a name starts the declaration of a function. -/
theorem declarationBody_of_function (rules : Rules) {t t' : Token} (ht : t.kind = .funKw)
    (ht' : t'.kind = .identifier) (rest : List Token) (mistakes : List Mistake) :
    declarationBody rules ⟨t :: t' :: rest, mistakes⟩ =
      (do return Stmt.functionDecl (← function rules .function)) ⟨t' :: rest, mistakes⟩ := by
  simp [declarationBody, bind_apply, nextIsFunction, accept, take?, ht, ht', -bind_pure_comp]

/-- Otherwise, what is read is no declaration of a function. -/
theorem declarationBody_of_other (rules : Rules) {s : ParseState} (h : ¬ StartsFunction s.rest) :
    declarationBody rules s = otherDeclaration rules s := by
  obtain ⟨_ | ⟨t, _ | ⟨t', rest⟩⟩, mistakes⟩ := s
  · rfl
  · rfl
  · have hnot : ¬ (t.kind = .funKw ∧ t'.kind = .identifier) := fun hk =>
      h ⟨t, t', rest, rfl, hk.1, hk.2⟩
    unfold declarationBody
    rw [bind_apply]
    simp only [nextIsFunction, hnot, decide_false]
    rfl

/-! ## The grammar -/

/-- Rules that yield legal trees. -/
structure Rules.Lawful (rules : Rules) : Prop where
  expression : Yields rules.expression Expr.Legal
  statement : Yields rules.statement fun s => s.Legal ∧ s.declared = none
  declaration : Yields rules.declaration fun o => ∀ s ∈ o, s.Legal

/-- Legal statements in front of legal statements are legal. -/
theorem legalStmts_append {β : Type} {body more : List (Stmt β)} (hb : legalStmts body)
    (hm : legalStmts more) : legalStmts (body ++ more) := by
  induction body with
  | nil => exact hm
  | cons s rest ih => exact ⟨hb.1, ih hb.2⟩

theorem legalStmts_toList {β : Type} {o : Option (Stmt β)} (ho : ∀ s ∈ o, s.Legal) :
    legalStmts o.toList := by
  cases o with
  | none => trivial
  | some s => exact ⟨ho s rfl, trivial⟩

theorem legalExprs_of_forall {β : Type} : ∀ {es : List (Expr β)}, (∀ e ∈ es, e.Legal) →
    legalExprs es
  | [], _ => trivial
  | e :: _, h => ⟨h e (List.mem_cons_self ..),
      legalExprs_of_forall fun e' he' => h e' (List.mem_cons_of_mem _ he')⟩

namespace Rules.Lawful

variable {rules : Rules} (hr : rules.Lawful)
include hr

/-- The statements of a block are legal. -/
theorem block : Yields (block rules) legalStmts := by
  have hstatements : ∀ bound, Yields (block.statements rules bound) legalStmts := by
    intro bound
    induction bound with
    | zero => exact .pure trivial
    | succ bound ih =>
      refine Yields.peek.bind fun o _ => ?_
      split
      · exact .pure trivial
      · exact .pure trivial
      · exact hr.declaration.bind fun o ho => ih.bind fun body hbody =>
          .pure (legalStmts_append (legalStmts_toList ho) hbody)
  exact (hstatements rules.bound).bind fun body hbody => (Yields.expect _ _).skip (.pure hbody)

/-- A literal, a name, a function or a group is a legal expression. -/
theorem primary : Yields (primary rules) Expr.Legal := by
  refine (Yields.take? (P := fun t => t.Proper ∧ primaryToken? t = some t)
    fun t a ht ha => ?_).bind fun o ho => ?_
  · have he : a = t := by
      unfold primaryToken? at ha
      split at ha <;> cases ha <;> rfl
    subst he
    exact ⟨ht, ha⟩
  cases o with
  | none => exact .giveUp _
  | some t =>
    obtain ⟨ht, hk⟩ := ho t rfl
    dsimp only
    split
    · exact .pure trivial
    · exact .pure trivial
    · exact .pure trivial
    · exact .pure trivial
    · exact .pure trivial
    · exact .pure trivial
    · exact (Yields.expect _ _).skip ((Yields.expectName _).bind fun _ _ => .pure trivial)
    · exact (Yields.expect _ _).skip ((Yields.parameters _).bind fun names hnames =>
        (Yields.expect _ _).skip (hr.block.bind fun body hbody => .pure ⟨hnames, hbody⟩))
    · refine hr.expression.bind fun inner hinner => ?_
      have hgrouping : (Expr.grouping inner).Legal := hinner
      exact (Yields.expect _ _).skip (.pure hgrouping)
    · have hname : t.kind = .identifier := by
        unfold primaryToken? at hk
        split at hk <;> simp_all
      exact .pure (ht hname)

/-- Calls and properties of a legal expression are legal. -/
theorem callSuffixes : ∀ (bound : Nat) (e : Expr Unit), e.Legal →
    Yields (callSuffixes rules bound e) Expr.Legal
  | 0, _, he => .pure he
  | bound + 1, e, he => by
    refine Yields.peek.bind fun o _ => ?_
    split
    · refine (Yields.accept _).skip ((Yields.parenthesized hr.expression _).bind fun r hes => ?_)
      exact callSuffixes bound _ ⟨he, legalExprs_of_forall hes⟩
    · exact (Yields.accept _).skip ((Yields.expectName _).bind fun _ _ => callSuffixes bound _ he)
    · exact .pure he

theorem call : Yields (call rules) Expr.Legal :=
  hr.primary.bind fun e he => hr.callSuffixes rules.bound e he

/-- Operators before a legal operand are legal. -/
theorem unary : Yields (unary rules) Expr.Legal := by
  have hoperators : ∀ bound, Yields (unary.operators rules bound) Expr.Legal := by
    intro bound
    induction bound with
    | zero => exact hr.call
    | succ bound ih =>
      refine (Yields.take? (P := fun _ => True) fun _ _ _ _ => trivial).bind fun o _ => ?_
      cases o with
      | none => exact hr.call
      | some r =>
        refine ih.bind fun e he => ?_
        have hunary : (Expr.unary r.1 r.2 e).Legal := he
        exact .pure hunary
  exact hoperators rules.bound

omit hr in
/-- Joining legal operands from the left. -/
theorem leftAssociative {operator? : Token → Option (Expr Unit → Expr Unit → Expr Unit)}
    (hjoin : ∀ t join, operator? t = some join →
      ∀ a b : Expr Unit, a.Legal → b.Legal → (join a b).Legal)
    {operand : Parser (Expr Unit)} (ho : Yields operand Expr.Legal) (bound : Nat) :
    Yields (leftAssociative operator? operand bound) Expr.Legal := by
  have hfurther : ∀ (bound : Nat) (left : Expr Unit), left.Legal →
      Yields (leftAssociative.further operator? operand bound left) Expr.Legal := by
    intro bound
    induction bound with
    | zero => exact fun left hleft => .pure hleft
    | succ bound ih =>
      intro left hleft
      refine (Yields.take? fun t join _ hj => hjoin t join hj).bind fun o hjoins => ?_
      cases o with
      | none => exact .pure hleft
      | some join =>
        exact ho.bind fun right hright => ih _ (hjoins join rfl left right hleft hright)
  exact ho.bind fun e he => hfurther bound e he

omit hr in
/-- The operators of one level join legal operands to a legal expression. -/
theorem binaryAt {level : Precedence} {operand : Parser (Expr Unit)}
    (ho : Yields operand Expr.Legal) (bound : Nat) :
    Yields (Parser.leftAssociative (binaryAt level) operand bound) Expr.Legal := by
  refine leftAssociative (fun t join hj a b ha hb => ?_) ho bound
  unfold Parser.binaryAt at hj
  split at hj
  · cases hj
  · split at hj <;> cases hj
    exact ⟨ha, hb⟩

omit hr in
/-- So do `and` and `or`. -/
theorem logicalAt {op : LogicalOp} {operand : Parser (Expr Unit)}
    (ho : Yields operand Expr.Legal) (bound : Nat) :
    Yields (Parser.leftAssociative (logicalAt op) operand bound) Expr.Legal := by
  refine leftAssociative (fun t join hj a b ha hb => ?_) ho bound
  unfold Parser.logicalAt at hj
  split at hj <;> cases hj
  exact ⟨ha, hb⟩

/-- An expression without an assignment is legal. -/
theorem disjunction : Yields (disjunction rules) Expr.Legal :=
  logicalAt (logicalAt (binaryAt (binaryAt (binaryAt (binaryAt hr.unary _) _) _) _) _) _

/-- An assignment to a variable or to a field is legal, and other targets are reported. -/
theorem assignment : Yields (assignment rules) Expr.Legal := by
  refine hr.disjunction.bind fun target htarget => (Yields.accept _).bind fun o _ => ?_
  cases o with
  | none => exact .pure htarget
  | some t =>
    refine Yields.bind (P := fun _ => True) (fun _ hs => ⟨trivial, hs⟩) fun s _ => ?_
    refine hr.expression.bind fun value hvalue => ?_
    have hassign : ∀ e, assignment? target value = some e → e.Legal := by
      intro e he
      cases target <;> cases he
      · exact ⟨htarget, hvalue⟩
      · exact ⟨htarget, hvalue⟩
    split
    · rename_i e he
      exact .pure (hassign e he)
    · exact (Yields.reportAt _ _).skip (.pure htarget)

/-! ### Statements -/

omit hr in
theorem expressionStatement {expression : Parser (Expr Unit)}
    (he : Yields expression Expr.Legal) :
    Yields (expressionStatement expression) fun s => s.Legal ∧ s.declared = none := by
  refine he.bind fun e he => (Yields.expect _ _).skip ?_
  have hstmt : (Stmt.expression e).Legal := he
  exact .pure ⟨hstmt, rfl⟩

omit hr in
/-- A part that may be left out is legal if it is there. -/
theorem unlessNext {kind : TokenKind} {expression : Parser (Expr Unit)}
    (he : Yields expression Expr.Legal) :
    Yields (unlessNext kind expression) fun o => ∀ e ∈ o, e.Legal := by
  refine (Yields.nextIs kind).bind fun c _ => ?_
  split
  · exact .pure nofun
  · exact he.bind fun e he => .pure fun e' he' => Option.some.inj he' ▸ he

/-- A declared variable has a name that may be declared. -/
theorem varDeclaration : Yields (varDeclaration rules) Stmt.Legal := by
  refine (Yields.expectName _).bind fun name hname => (Yields.accept _).bind fun o _ => ?_
  cases o with
  | none => exact (Yields.expect _ _).skip (.pure hname)
  | some _ =>
    have hsome : Yields (some <$> rules.expression) fun o => ∃ e, o = some e ∧ e.Legal :=
      .map (hr.expression.imp fun e he => ⟨e, rfl, he⟩)
    refine hsome.bind fun o ho => (Yields.expect _ _).skip ?_
    obtain ⟨e, rfl, he⟩ := ho
    exact .pure ⟨hname, he⟩

theorem condition (opening closing : Expectation) :
    Yields (condition rules opening closing) Expr.Legal :=
  (Yields.expect _ _).skip (hr.expression.bind fun _ he => (Yields.expect _ _).skip (.pure he))

/-- What a `for` statement starts with is legal. -/
theorem forInitializer : Yields (forInitializer rules) fun o => ∀ s ∈ o, s.Legal := by
  refine Yields.peek.bind fun o _ => ?_
  have hsome : ∀ s : Stmt Unit, s.Legal →
      Yields (pure (some s)) fun o => ∀ s ∈ o, s.Legal :=
    fun s hs => .pure fun s' hs' => Option.some.inj hs' ▸ hs
  split
  · exact (Yields.accept _).skip (.pure nofun)
  · exact (Yields.accept _).skip (hr.varDeclaration.bind hsome)
  · exact (expressionStatement hr.expression).bind fun s hs => hsome s hs.1

omit hr in
/-- The statements that a `for` statement stands for are legal, and declare nothing. -/
theorem legal_forLoop {initializer : Option (Stmt Unit)} {condition increment : Option (Expr Unit)}
    {body : Stmt Unit} (hi : ∀ s ∈ initializer, s.Legal) (hc : ∀ e ∈ condition, e.Legal)
    (hn : ∀ e ∈ increment, e.Legal) (hb : body.Legal ∧ body.declared = none) :
    (Stmt.forLoop initializer condition increment body).Legal ∧
      (Stmt.forLoop initializer condition increment body).declared = none := by
  have hcondition : (condition.getD (.literal (.boolean true))).Legal := by
    cases condition with
    | none => trivial
    | some e => exact hc e rfl
  cases initializer with
  | none =>
    cases increment with
    | none => exact ⟨⟨hcondition, hb⟩, rfl⟩
    | some step => exact ⟨⟨hcondition, ⟨hb.1, hn step rfl, trivial⟩, rfl⟩, rfl⟩
  | some start =>
    cases increment with
    | none => exact ⟨⟨hi start rfl, ⟨hcondition, hb⟩, trivial⟩, rfl⟩
    | some step =>
      exact ⟨⟨hi start rfl, ⟨hcondition, ⟨hb.1, hn step rfl, trivial⟩, rfl⟩, trivial⟩, rfl⟩

theorem forStatement :
    Yields (forStatement rules) fun s => s.Legal ∧ s.declared = none :=
  (Yields.expect _ _).skip <| hr.forInitializer.bind fun _ hi =>
    (unlessNext hr.expression).bind fun _ hc => (Yields.expect _ _).skip <|
      (unlessNext hr.expression).bind fun _ hn => (Yields.expect _ _).skip <|
        hr.statement.bind fun _ hb => .pure (legal_forLoop hi hc hn hb)

/-- The bodies of further branches are no declarations. -/
theorem elifBranches : ∀ bound, Yields (elifBranches rules bound) legalElifs
  | 0 => .pure trivial
  | bound + 1 => by
    refine (Yields.accept _).bind fun o _ => ?_
    cases o with
    | none => exact .pure trivial
    | some _ =>
      exact (hr.condition _ _).bind fun c hc => hr.statement.bind fun body hbody =>
        (elifBranches bound).bind fun rest hrest => .pure ⟨⟨hc, hbody⟩, hrest⟩

/-- The branches of a choice are no declarations. -/
theorem ifStatement :
    Yields (ifStatement rules) fun s => s.Legal ∧ s.declared = none := by
  refine (hr.condition _ _).bind fun c hc => hr.statement.bind fun thenBranch hthen =>
    (hr.elifBranches _).bind fun elifs helifs => (Yields.accept _).bind fun o _ => ?_
  have hif : ∀ elseBranch, legalElse elseBranch →
      Yields (pure (Stmt.ifStmt c thenBranch elifs elseBranch)) fun s =>
        s.Legal ∧ s.declared = none :=
    fun _ helse => .pure ⟨⟨hc, hthen, helifs, helse⟩, rfl⟩
  cases o with
  | none => exact hif none trivial
  | some _ =>
    have hsome : Yields (some <$> rules.statement) legalElse := .map hr.statement
    exact hsome.bind hif

/-- The body of a loop is no declaration. -/
theorem whileStatement :
    Yields (whileStatement rules) fun s => s.Legal ∧ s.declared = none :=
  (hr.condition _ _).bind fun _ hc => hr.statement.bind fun _ hb => .pure ⟨⟨hc, hb⟩, rfl⟩

theorem printStatement :
    Yields (printStatement rules) fun s => s.Legal ∧ s.declared = none := by
  refine hr.expression.bind fun e he => (Yields.expect _ _).skip ?_
  have hstmt : (Stmt.print e).Legal := he
  exact .pure ⟨hstmt, rfl⟩

theorem returnStatement (line : Nat) :
    Yields (returnStatement rules line) fun s => s.Legal ∧ s.declared = none := by
  refine (unlessNext hr.expression).bind fun o ho => (Yields.expect _ _).skip ?_
  cases o with
  | none => exact .pure ⟨trivial, rfl⟩
  | some e =>
    have hstmt : (Stmt.returnStmt line (some e)).Legal := ho e rfl
    exact .pure ⟨hstmt, rfl⟩

/-- A statement is legal, and it is no declaration. -/
theorem statementBody : Yields (Parser.statement rules) fun s => s.Legal ∧ s.declared = none := by
  refine (Yields.take? (P := fun _ => True) fun _ _ _ _ => trivial).bind fun o _ => ?_
  cases o with
  | none => exact expressionStatement hr.assignment
  | some t =>
    dsimp only
    split
    · exact hr.forStatement
    · exact hr.ifStatement
    · exact hr.printStatement
    · exact hr.returnStatement t.line
    · exact (Yields.expect _ _).skip (.pure ⟨trivial, rfl⟩)
    · exact hr.whileStatement
    · refine hr.block.bind fun body hbody => ?_
      have hstmt : (Stmt.block body).Legal := hbody
      exact .pure ⟨hstmt, rfl⟩

/-! ### Declarations -/

/-- A function has a name and parameters that may be declared, and a legal body. -/
theorem function (kind : FunctionKind) : Yields (function rules kind) Function.Legal :=
  (Yields.expectName _).bind fun _ hname => (Yields.expect _ _).skip <|
    (Yields.parameters _).bind fun _ hnames => (Yields.expect _ _).skip <|
      hr.block.bind fun _ hbody => .pure ⟨hname, hnames, hbody⟩

theorem methods : ∀ bound, Yields (methods rules bound) legalFunctions
  | 0 => .pure trivial
  | bound + 1 => by
    refine Yields.peek.bind fun o _ => ?_
    split
    · exact .pure trivial
    · exact .pure trivial
    · exact (hr.function _).bind fun f hf => (methods bound).bind fun rest hrest =>
        .pure ⟨hf, hrest⟩

omit hr in
theorem superclass : Yields superclass fun _ => True := by
  refine (Yields.accept _).bind fun o _ => ?_
  cases o with
  | none => exact .pure trivial
  | some _ => exact (Yields.expectName _).bind fun _ _ => .pure trivial

/-- A class has a name that may be declared, and legal methods. -/
theorem classDeclaration : Yields (classDeclaration rules) Stmt.Legal :=
  (Yields.expectName _).bind fun _ hname => superclass.bind fun _ _ =>
    (Yields.expect _ _).skip <| (hr.methods _).bind fun _ hmethods =>
      (Yields.expect _ _).skip (.pure ⟨hname, hmethods⟩)

/-- A declaration is legal. -/
theorem declarationBody : Yields (declarationBody rules) Stmt.Legal := by
  have hnext : Yields nextIsFunction fun _ => True := by
    intro s hs
    obtain ⟨rest, mistakes⟩ := s
    rcases rest with _ | ⟨a, _ | ⟨b, rest⟩⟩ <;> exact ⟨trivial, hs⟩
  refine hnext.bind fun c _ => ?_
  split
  · refine (Yields.accept _).skip ((hr.function _).bind fun f hf => ?_)
    have hstmt : (Stmt.functionDecl f).Legal := hf
    exact .pure hstmt
  · refine Yields.peek.bind fun o _ => ?_
    split
    · exact (Yields.accept _).skip hr.classDeclaration
    · exact (Yields.accept _).skip hr.varDeclaration
    · exact hr.statementBody.imp fun _ hs => hs.1

omit hr in
/-- Recovery only leaves out tokens. -/
theorem mem_recover {t : Token} {tokens : List Token} (ht : t ∈ recover tokens) : t ∈ tokens := by
  have hskip : ∀ (tokens : List Token) (last : TokenKind), t ∈ skipAfter last tokens →
      t ∈ tokens := by
    intro tokens
    induction tokens with
    | nil => exact fun _ h => h
    | cons first rest ih =>
      intro last h
      unfold skipAfter at h
      split at h
      · exact h
      · exact List.mem_cons_of_mem _ (ih _ h)
  cases tokens with
  | nil => exact ht
  | cons first rest => exact List.mem_cons_of_mem _ (hskip rest _ ht)

/-- A declaration is legal, unless it is given up, and then there is none. -/
theorem declarationOrSkip : Yields (Parser.declaration rules) fun o => ∀ s ∈ o, s.Legal := by
  intro s hs
  have h := hr.declarationBody s hs
  unfold Parser.declaration
  cases hx : Parser.declarationBody rules s with
  | ok stmt s' =>
    rw [hx] at h
    exact ⟨fun stmt' he => Option.some.inj he ▸ h.1, h.2⟩
  | error e s' =>
    rw [hx] at h
    exact ⟨nofun, fun t ht => h t (mem_recover ht)⟩

end Rules.Lawful

/-- The rules of the grammar yield legal trees, at any depth. -/
theorem Rules.lawful_ofDepth : ∀ depth, (Rules.ofDepth depth).Lawful
  | 0 => ⟨.throw, .throw, .throw⟩
  | depth + 1 =>
    have hr := lawful_ofDepth depth
    ⟨hr.assignment, hr.statementBody, hr.declarationOrSkip⟩

/-- A program is legal, whatever declarations in it are given up. -/
theorem Rules.Lawful.program {rules : Rules} (hr : rules.Lawful) :
    ∀ bound, Yields (program rules bound) legalStmts
  | 0 => .pure trivial
  | bound + 1 => by
    refine Yields.peek.bind fun o _ => ?_
    split
    · exact .pure trivial
    · exact hr.declaration.bind fun o ho => (hr.program bound).bind fun rest hrest =>
        .pure (legalStmts_append (legalStmts_toList ho) hrest)

end Parser

/-- The program that proper tokens spell is legal. -/
theorem Parse.legal {tokens : List Token} (ht : ∀ t ∈ tokens, t.Proper) :
    legalStmts (Parse.ofTokens tokens).program := by
  have h := (Parser.Rules.lawful_ofDepth (tokens.length + 1)).program tokens.length ⟨tokens, []⟩ ht
  unfold Parse.ofTokens
  dsimp only
  cases hx : Parser.program (.ofDepth (tokens.length + 1)) tokens.length ⟨tokens, []⟩ with
  | ok program s =>
    rw [hx] at h
    exact h.1
  | error e s => trivial

/-! ## Program texts -/

/-- A word that is no keyword is neither `this` nor `super`. -/
theorem ordinary_of_ofWord {word : String} (hw : TokenKind.ofWord word = .identifier) :
    word ≠ "this" ∧ word ≠ "super" := by
  constructor
  · rintro rfl
    exact absurd hw (by decide)
  · rintro rfl
    exact absurd hw (by decide)

/-- A segment that is a name is a word and no keyword. -/
theorem Segment.ofWord_of_cut {c : Char} {rest : List Char}
    (h : (cut c rest).1.kind = .token .identifier) :
    TokenKind.ofWord (String.ofList (cut c rest).1.text) = .identifier := by
  have hsingle : ∀ kind, TokenKind.ofSingle? c = some kind → kind ≠ .identifier := by
    intro kind hs
    unfold TokenKind.ofSingle? at hs
    split at hs <;> cases hs <;> decide
  have hrelational : ∀ kinds, TokenKind.ofRelational? c = some kinds →
      (cutRelational c kinds rest).1.kind ≠ .token .identifier := by
    intro kinds hs
    unfold TokenKind.ofRelational? at hs
    unfold cutRelational
    split at hs <;> cases hs <;> split <;> exact nofun
  unfold cut at h ⊢
  cases hs : TokenKind.ofSingle? c with
  | some kind =>
    rw [hs] at h
    exact absurd (SegmentKind.token.inj h) (hsingle kind hs)
  | none =>
    cases hr : TokenKind.ofRelational? c with
    | some kinds =>
      rw [hs, hr] at h
      exact absurd h (hrelational kinds hr)
    | none =>
      rw [hs, hr] at h
      dsimp only at h ⊢
      split at h
      · unfold cutSlash at h
        split at h <;> cases h
      split at h
      · cases h
      split at h
      · cases h
      split at h
      · unfold cutString at h
        dsimp only at h
        split at h <;> cases h
      split at h
      · unfold cutNumber at h
        dsimp only at h
        split at h
        · split at h <;> cases h
        · cases h
      split at h
      · simp_all [cutWord]
      · cases h

/-- The names among the segments of a text are no keywords. -/
theorem Segment.ofWord_of_mem {text : List Char} :
    ∀ s ∈ segments text, s.kind = .token .identifier →
      TokenKind.ofWord (String.ofList s.text) = .identifier := by
  fun_induction segments text with
  | case1 =>
    intro s hs
    cases hs
  | case2 c rest ih =>
    intro s hs
    rcases List.mem_cons.mp hs with rfl | hs
    · exact Segment.ofWord_of_cut
    · exact ih s hs

/-- The names in a text are none of the keywords. -/
theorem Scan.proper (source : String) : ∀ t ∈ (Scan.ofSource source).tokens, t.Proper := by
  intro t ht hk
  rw [Scan.ofSource, Scan.ofChars_eq] at ht
  obtain ⟨⟨line, s⟩, hs, he⟩ := List.mem_filterMap.mp ht
  have hmem := mem_of_mem_numbered hs
  simp only [Segment.token?] at he
  split at he
  · rename_i kind hkind
    cases he
    obtain rfl : kind = .identifier := hk
    exact ordinary_of_ofWord (Segment.ofWord_of_mem s hmem hkind)
  · cases he

/-- A program that is read from a text is legal. -/
theorem Reading.legal (source : String) : legalStmts (Reading.ofSource source).program :=
  Parse.legal (Scan.proper source)

end ClassScript
