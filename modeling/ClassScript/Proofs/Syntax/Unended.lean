import ClassScript.Proofs.Syntax.Isolation
import ClassScript.Proofs.Syntax.Spelling

/-!
# A statement without its semicolon

Where the semicolon of a statement is missing, the first token behind the statement is
blamed for it, and recovery begins with an unconditional step over that token
(`Rules.Complete.declaration_unended`).  If it starts a statement, recovery does not stop
at it but goes on to the next boundary, which may lie in the middle of what it starts.

The tokens that start statements can be counted in the trees that they spell
(`Spells.countStarts_eq`).  Recovery leaves fewer of them, so some of what follows is always
lost: it is never read as it would be alone (`Parse.ofTokens_unended`).
-/

namespace ClassScript

/-- What is missing behind a statement that is an expression, prints one or declares a
variable, if its semicolon is. -/
def Stmt.ending? : Stmt Unit → Option Expectation
  | .expression _ => some .expressionEnd
  | .print _ => some .printEnd
  | .var _ _ => some .variableEnd
  | _ => none

/-! ## Statements without their semicolons -/

/-- Tokens that spell a statement up to its semicolon, and what is missing behind them. -/
inductive Unended : List Token → Stmt Unit → Expectation → Prop where
  | expression {ts : List Token} {e : Expr Unit} : Spells ts (.expression .assignment e) →
      Unended ts (.expression e) .expressionEnd
  | print {word : Token} {ts : List Token} {e : Expr Unit} : word.kind = .printKw →
      Spells ts (.expression .assignment e) → Unended (word :: ts) (.print e) .printEnd
  | plainVariable {word name : Token} : word.kind = .varKw → name.kind = .identifier →
      Unended [word, name] (.var name.name none) .variableEnd
  | initializedVariable {word name equal : Token} {ts : List Token} {e : Expr Unit} :
      word.kind = .varKw → name.kind = .identifier → equal.kind = .equal →
      Spells ts (.expression .assignment e) →
      Unended (word :: name :: equal :: ts) (.var name.name (some e)) .variableEnd

theorem Spells.unended {ts : List Token} {semicolon : Token} {s : Stmt Unit} {isOpen : Bool}
    {what : Expectation} (h : Spells (ts ++ [semicolon]) (.declaration s isOpen))
    (hwhat : s.ending? = some what) : Unended ts s what := by
  generalize hts : ts ++ [semicolon] = us at h
  cases h with
  | variableDecl hvariable =>
    cases hwhat
    cases hvariable with
    | @plainVariable word name semicolon' hword hname =>
      have hts : ts ++ [semicolon] = [word, name] ++ [semicolon'] := hts
      obtain ⟨rfl, -⟩ := List.append_inj' hts rfl
      exact .plainVariable hword hname
    | @initializedVariable word name equal semicolon' ts' e hword hname hequal he =>
      have hts : ts ++ [semicolon] = (word :: name :: equal :: ts') ++ [semicolon'] := hts
      obtain ⟨rfl, -⟩ := List.append_inj' hts rfl
      exact .initializedVariable hword hname hequal he
  | statementDecl hs =>
    cases hs with
    | expressionStatement he =>
      cases hwhat
      obtain ⟨rfl, -⟩ := List.append_inj' hts rfl
      exact .expression he
    | @print word semicolon' ts' e hword he =>
      cases hwhat
      have hts : ts ++ [semicolon] = (word :: ts') ++ [semicolon'] := hts
      obtain ⟨rfl, -⟩ := List.append_inj' hts rfl
      exact .print hword he
    | @forLoop _ _ _ _ _ _ _ _ start _ step => cases start <;> cases step <;> cases hwhat
    | _ => cases hwhat
  | _ => cases hwhat

/-- The first token of such a statement does not go on with a choice. -/
theorem Unended.endsChoice {ts : List Token} {s : Stmt Unit} {what : Expectation}
    (h : Unended ts s what) (us : List Token) : EndsChoice (ts ++ us) := by
  have hword {word : Token} {k : TokenKind} (hk : word.kind = k) (helif : k ≠ .elifKw)
      (helse : k ≠ .elseKw) (us : List Token) : EndsChoice (word :: us) := by
    rintro _ _ ⟨⟩
    rw [hk]
    exact ⟨helif, helse⟩
  cases h with
  | expression he =>
    obtain ⟨t, us, rfl, ht⟩ := StartsExpression.head he.starts
    exact hword rfl (TokenKind.ne_of_startsExpression ht rfl)
      (TokenKind.ne_of_startsExpression ht rfl) _
  | print hk => exact hword hk (by decide) (by decide) _
  | plainVariable hk => exact hword hk (by decide) (by decide) _
  | initializedVariable hk => exact hword hk (by decide) (by decide) _

namespace Parser

theorem joins?_of_startsStatement {k : TokenKind} (h : startsStatement k = true) :
    k.joins? = none := by
  cases k <;> first | rfl | cases h

/-! ## Rules that give up -/

/-- From the tokens `ts` and the tokens `r` behind them, the rule takes `ts`, gives up at
`r` and reports what is missing there, and nothing else. -/
def Misses {α : Type} (x : Parser α) (ts : List Token) (what : Expectation) (r : List Token) :
    Prop :=
  ∀ mistakes, x ⟨ts ++ r, mistakes⟩ = .error () ⟨r, mistakes ++ [⟨r.length, .expected what⟩]⟩

namespace Misses

variable {α β : Type} {x : Parser α} {f : α → Parser β} {a : α} {t : Token} {ts us r : List Token}
  {what : Expectation}

theorem expect {kind : TokenKind} (h : ∀ t us, r = t :: us → t.kind ≠ kind) :
    Misses (Parser.expect kind what) [] what r := by
  intro mistakes
  have hnone := Takes.accept_none h mistakes
  show (accept kind >>= fun found => _) _ = _
  rw [bind_apply, hnone]
  rfl

/-- What would come next is not reached. -/
theorem bind (hx : Misses x ts what r) : Misses (x >>= f) ts what r := by
  intro mistakes
  rw [bind_apply, hx]

theorem after (hx : Takes x ts a (us ++ r)) (hf : Misses (f a) us what r) :
    Misses (x >>= f) (ts ++ us) what r := by
  intro mistakes
  rw [bind_apply, List.append_assoc, hx]
  exact hf mistakes

theorem token (hx : Takes x [t] a (ts ++ r)) (hf : Misses (f a) ts what r) :
    Misses (x >>= f) (t :: ts) what r :=
  after hx hf

theorem nothing (hx : Takes x [] a (ts ++ r)) (hf : Misses (f a) ts what r) :
    Misses (x >>= f) ts what r :=
  after hx hf

/-- A rule whose last token is missing. -/
theorem last {kind : TokenKind} {f : α → Parser β} {g : Token → Parser β} (hx : Takes x ts a r)
    (hf : f a = Parser.expect kind what >>= g) (h : ∀ t us, r = t :: us → t.kind ≠ kind) :
    Misses (x >>= f) ts what r := by
  have hlast : Misses (f a) [] what r := hf ▸ bind (expect h)
  have hrule : Misses (x >>= f) (ts ++ []) what r := after hx hlast
  rwa [List.append_nil] at hrule

theorem peek {g : Option TokenKind → Parser β} {k : Option TokenKind}
    (hk : (ts ++ r).head?.map Token.kind = k) (hg : Misses (g k) ts what r) :
    Misses (Parser.peek >>= g) ts what r := by
  intro mistakes
  have h : Parser.peek ⟨ts ++ r, mistakes⟩ = .ok k ⟨ts ++ r, mistakes⟩ := by
    rw [← hk]
    rfl
  rw [bind_apply, h]
  exact hg mistakes

end Misses

namespace Rules.Complete

variable {rules : Rules} {n : Nat} (hr : rules.Complete n) {ts r : List Token} {t : Token}
  {s : Stmt Unit} {what : Expectation}
include hr

/-- A declaration without its semicolon is given up at the token behind it, if that starts
another statement. -/
theorem declarationBody_unended (h : Unended ts s what) (ht : startsStatement t.kind = true)
    (hn : (ts ++ t :: r).length ≤ n) :
    Misses (Parser.declarationBody rules) ts what (t :: r) := by
  have hstops (l : Level) : l.Stops (t :: r) := Level.stops_of_none (joins?_of_startsStatement ht)
  have hsemicolon : ∀ u us, t :: r = u :: us → u.kind ≠ .semicolon := by
    rintro _ _ ⟨⟩ hk
    rw [hk] at ht
    cases ht
  have hequal : Takes (accept .equal) [] none (t :: r) := by
    refine .accept_none ?_
    rintro _ _ ⟨⟩ hk
    rw [hk] at ht
    cases ht
  have hword {word : Token} {k : TokenKind} (hk : word.kind = k) (hfun : k ≠ .funKw)
      (us : List Token) : Takes nextIsFunction [] false (word :: us) :=
    .nextIsFunction_of_head fun hk' => absurd (hk.symm.trans hk') hfun
  have hkeyword {word : Token} {k : TokenKind} (hk : word.kind = k)
      (hstart : k.startsStatement = true) (us : List Token) :
      Takes (take? statementWord?) [word] (some word) us :=
    .take?_some (by rw [statementWord?_eq, hk, if_pos hstart])
  simp only [List.length_append, List.length_cons] at hn
  unfold Parser.declarationBody
  cases h with
  | @expression _ e he =>
    have hexpression := hr.assignment ts e (t :: r) he (hstops _) (by simpa using hn)
    obtain ⟨first, us, rfl, hclass, hvar, hfun⟩ := StartsStatement.head (.inr he.starts)
    obtain ⟨_, _, ⟨⟩, hfirst⟩ := StartsExpression.head he.starts
    have hnone : Takes (take? statementWord?) [] none (first :: us ++ t :: r) := by
      refine .take?_none ?_
      rintro _ _ ⟨⟩
      rw [statementWord?_eq, TokenKind.startsStatement_of_startsExpression hfirst]
      rfl
    refine .nothing (.nextIsFunction_of_head fun hk => ?_) (.peek (k := some first.kind) rfl ?_)
    · obtain ⟨u, ws, rfl, hu⟩ := hfun hk
      exact ⟨u, ws ++ t :: r, rfl, hu⟩
    split
    · exact absurd (Option.some.inj ‹_›) hclass
    · exact absurd (Option.some.inj ‹_›) hvar
    · exact .nothing hnone (.last hexpression rfl hsemicolon)
  | @print word us e hk he =>
    have hvalue := hr.expression (r := t :: r) he (hstops _) (by
      simp only [List.length_append, List.length_cons] at hn ⊢
      omega)
    refine .nothing (hword hk (by decide) _) (.peek (k := some .printKw) (by simp [hk]) ?_)
    refine .token (hkeyword hk rfl _) ?_
    simp only [hk]
    exact .last hvalue rfl hsemicolon
  | @plainVariable word name hk hname =>
    refine .nothing (hword hk (by decide) _) (.peek (k := some .varKw) (by simp [hk]) ?_)
    refine .token (.accept_some hk) (.token (.expectName _ hname) ?_)
    exact .nothing hequal (.last (.pure none) rfl hsemicolon)
  | @initializedVariable word name equal us e hk hname he hvalue =>
    have hvalue := hr.expression (r := t :: r) hvalue (hstops _) (by
      simp only [List.length_append, List.length_cons] at hn ⊢
      omega)
    refine .nothing (hword hk (by decide) _) (.peek (k := some .varKw) (by simp [hk]) ?_)
    refine .token (.accept_some hk) (.token (.expectName _ hname) (.token (.accept_some he) ?_))
    exact .last (hvalue.last rfl) rfl hsemicolon

/-- Recovery from the missing semicolon begins behind the token that is blamed for it. -/
theorem declaration_unended (h : Unended ts s what) (ht : startsStatement t.kind = true)
    (hn : (ts ++ t :: r).length ≤ n) (mistakes : List Mistake) :
    Parser.declaration rules ⟨ts ++ t :: r, mistakes⟩ = .ok none
      ⟨skipAfter t.kind r, mistakes ++ [⟨r.length + 1, .expected what⟩]⟩ := by
  unfold Parser.declaration
  rw [hr.declarationBody_unended h ht hn]
  rfl

end Rules.Complete

end Parser

/-! ## Tokens that start statements -/

/-- How many of the kinds start a statement. -/
def countStarts (kinds : List TokenKind) : Nat := kinds.countP Parser.startsStatement

@[simp] theorem countStarts_nil : countStarts [] = 0 := rfl

@[simp] theorem countStarts_cons (k : TokenKind) (kinds : List TokenKind) :
    countStarts (k :: kinds) = countStarts kinds + if Parser.startsStatement k then 1 else 0 :=
  List.countP_cons ..

@[simp] theorem countStarts_append (kinds kinds' : List TokenKind) :
    countStarts (kinds ++ kinds') = countStarts kinds + countStarts kinds' :=
  List.countP_append ..

/-- The tokens of what is spelled, up to those that start no statement: an initializer that
is missing and one that is an expression come out alike. -/
def Phrase.marks : Phrase → List Mark
  | .expression _ e => e.marks
  | .arguments es => Mark.separated (exprMarks es)
  | .optional e => (e.map Expr.marks).getD []
  | .condition e => e.marks
  | .variable name e => (Stmt.var name e).marks
  | .initializer start => (start.map Stmt.marks).getD []
  | .statement s _ => s.marks
  | .elifs branches _ => elifMarks branches
  | .block body => stmtMarks body
  | .code names body => Mark.code names (stmtMarks body)
  | .function f => f.marks
  | .methods fs => functionMarks fs
  | .superclass parent => parentMarks parent
  | .declaration s _ => s.marks
  | .declarations body => stmtMarks body

theorem Separated.countStarts_names {ts : List Token} {names : List Name}
    (h : Separated Token.Names ts names) : countStarts (ts.map Token.kind) = 0 := by
  induction h with
  | nil => rfl
  | single ht =>
    obtain ⟨t, ht, rfl, -⟩ := ht
    simp [ht, Parser.startsStatement]
  | cons ht hcomma _ ih =>
    obtain ⟨t, ht, rfl, -⟩ := ht
    simp [ht, hcomma, ih, Parser.startsStatement]

theorem Mark.countStarts_names (names : List Name) :
    countStarts ((Mark.separated (names.map fun name => [Mark.ofName name])).map Mark.kind) =
      0 := by
  induction names with
  | nil => rfl
  | cons name rest ih =>
    cases rest with
    | nil => rfl
    | cons name' rest => exact ih

theorem Mark.startsStatement_ofLiteral (v : Literal) :
    Parser.startsStatement (Mark.ofLiteral v).kind = false := by
  cases v with
  | boolean value => cases value <;> rfl
  | _ => rfl

/-- As many of the tokens start a statement as the trees that they spell have such tokens. -/
theorem Spells.countStarts_eq {ts : List Token} {p : Phrase} (h : Spells ts p) :
    countStarts (ts.map Token.kind) = countStarts (p.marks.map Mark.kind) := by
  have hcount : ∀ {k : TokenKind}, Parser.startsStatement k = false → countStarts [k] = 0 := by
    intro k hk
    simp [hk]
  induction h with
  | @literal t _ ht =>
    have hleft : countStarts [t.kind] = 0 := by
      rcases ht with ht | ht <;> exact hcount (ht ▸ rfl)
    exact hleft.trans (hcount (Mark.startsStatement_ofLiteral _)).symm
  | @returnStmt _ _ _ e =>
    cases e <;>
      simp_all [Phrase.marks, Stmt.marks, Mark.symbol, Mark.onLine, Parser.startsStatement]
  -- The tree of a `for` loop has other tokens: what is added starts no statement.
  | @forLoop _ _ _ _ _ _ _ _ start c step _ _ _ _ _ _ _ _ _ _ ih =>
    cases start <;> cases c <;> cases step <;>
      simp_all [Phrase.marks, Stmt.forLoop, Expr.marks, Stmt.marks, stmtMarks, Mark.symbol,
        Mark.parenthesized, Mark.braced, Mark.ofLiteral, Parser.startsStatement] <;>
      omega
  | code _ hnames _ _ _ ih =>
    simp_all [Phrase.marks, Mark.code, Mark.symbol, Mark.parenthesized, Mark.braced,
      Mark.countStarts_names, hnames.countStarts_names, Parser.startsStatement]
  | _ =>
    simp_all [Phrase.marks, Expr.marks, Stmt.marks, Function.marks, exprMarks, stmtMarks, elifMarks,
      elseMarks, functionMarks, parentMarks, Mark.separated, Mark.symbol, Mark.onLine, Mark.ofName,
      Mark.parenthesized, Mark.braced, Mark.ofLiteral, Parser.startsStatement]

theorem Parser.countStarts_skipAfter (last : TokenKind) (ts : List Token) :
    countStarts ((skipAfter last ts).map Token.kind) ≤ countStarts (ts.map Token.kind) :=
  ((skipAfter_suffix last ts).map Token.kind).sublist.countP_le

/-! ## What is lost -/

namespace Parse

/-- Earlier mistakes do not change what a program is read as. -/
theorem program_behind {tokens : List Token} {depth bound : Nat} (hdepth : tokens.length < depth)
    (hbound : tokens.length ≤ bound) (mistakes : List Mistake) :
    Parser.program (.ofDepth depth) bound ⟨tokens, mistakes⟩ =
      .ok (ofTokens tokens).program ⟨[], mistakes ++ (ofTokens tokens).mistakes⟩ := by
  have hr := Parser.Rules.read_watching (fun _ : Unit => fun _ => []) (tokens.length + 1) le_rfl
    (fun _ => depth) fun _ => hdepth
  have hbounds : ∀ i : Unit, tokens.length + 1 ≤ (fun _ => bound) i + 1 := fun _ =>
    Nat.succ_le_succ hbound
  obtain ⟨p, log, -, hrun⟩ := hr.program le_rfl hbounds tokens (Nat.lt_succ_self _)
  simp only [Parser.Rules.watching_nil, Parser.Entry.reports_nil] at hrun
  have halone := (hrun () []).symm.trans (program_ofDepth hdepth hbound)
  obtain ⟨hprogram, hstate⟩ := EStateM.Result.ok.inj halone
  have hmistakes : log.flatMap Parser.Entry.mistakes = (ofTokens tokens).mistakes :=
    congrArg ParseState.mistakes hstate
  rw [hrun () mistakes, hprogram, hmistakes]

section

variable {before statement behind : List Token} {semicolon first : Token} {s : Stmt Unit}
  {what : Expectation} (hbefore : (ofTokens before).mistakes = [])
  (hstatement : ofTokens (statement ++ [semicolon]) = ⟨[s], []⟩) (hwhat : s.ending? = some what)
  (hfirst : Parser.startsStatement first.kind = true)

include hstatement hwhat in
theorem unended : Unended statement s what := by
  have hspells : Spells (statement ++ [semicolon]) (.declarations [s]) := by
    have h := spells_of_mistakes (congrArg Parse.mistakes hstatement)
    rwa [hstatement] at h
  generalize hts : statement ++ [semicolon] = ts at hspells
  cases hspells with
  | declarations hs hnone =>
    cases hnone
    rw [List.append_nil] at hts
    exact (hts ▸ hs).unended hwhat

include hbefore hstatement hwhat hfirst in
/-- The first token behind the statement is blamed and skipped. -/
theorem ofTokens_skipping :
    ofTokens (before ++ (statement ++ first :: behind)) =
      ⟨(ofTokens before).program ++ (ofTokens (Parser.skipAfter first.kind behind)).program,
        ⟨behind.length + 1, .expected what⟩ ::
          (ofTokens (Parser.skipAfter first.kind behind)).mistakes⟩ := by
  have hunended := unended hstatement hwhat
  generalize htokens : before ++ (statement ++ first :: behind) = tokens
  have hlength : tokens.length = before.length + (statement.length + (behind.length + 1)) := by
    simp [← htokens]
  have hskip := (Parser.skipAfter_suffix first.kind behind).length_le
  have hne : statement ++ first :: behind ≠ [] := by simp
  obtain ⟨count, hcount, hread⟩ := (Parser.Rules.complete_ofDepth (tokens.length + 1)).programBefore
    (spells_of_mistakes hbefore) (hunended.endsChoice _) (by rw [htokens]; exact Nat.lt_succ_self _)
  obtain ⟨bound, hbound⟩ : ∃ bound, tokens.length = bound + 1 + count :=
    ⟨tokens.length - count - 1, by omega⟩
  have hdrop := (Parser.Rules.complete_ofDepth tokens.length).declaration_unended hunended hfirst
    (r := behind) (by simp only [List.length_append, List.length_cons]; omega) []
  have hdepth : (Parser.skipAfter first.kind behind).length < tokens.length + 1 := by omega
  have hlast := program_behind hdepth (show _ ≤ bound by omega)
    [⟨behind.length + 1, .expected what⟩]
  have hrun := hread (bound + 1) []
  rw [Parser.bind_apply, Parser.program_dropped hne hdrop, List.nil_append, hlast, htokens,
    ← hbound, program_ofDepth (Nat.lt_succ_self tokens.length) le_rfl] at hrun
  obtain ⟨hprogram, hstate⟩ := EStateM.Result.ok.inj hrun
  have hmistakes := congrArg ParseState.mistakes hstate
  cases hparse : ofTokens tokens
  rw [hparse] at hprogram hmistakes
  exact congrArg₂ Parse.mk hprogram hmistakes

include hfirst in
/-- What is left behind a first token that is skipped is never all that there was. -/
theorem program_skipping_ne (hbehind : (ofTokens (first :: behind)).mistakes = [])
    (hrest : (ofTokens (Parser.skipAfter first.kind behind)).mistakes = []) :
    (ofTokens (Parser.skipAfter first.kind behind)).program ≠
      (ofTokens (first :: behind)).program := by
  intro hprogram
  have hless := (spells_of_mistakes hrest).countStarts_eq
  have hmore := (spells_of_mistakes hbehind).countStarts_eq
  have hskip := Parser.countStarts_skipAfter first.kind behind
  rw [hprogram, ← hmore, List.map_cons, countStarts_cons, if_pos hfirst] at hless
  omega

end

/-- A statement without its semicolon in front of one that would be read alone is dropped,
the first token behind it is blamed for what is missing, and it is skipped too.  So the
statement that it starts is lost: either there are further mistakes, or other statements
are read than those that follow. -/
theorem ofTokens_unended {before statement behind : List Token} {semicolon first : Token}
    {s : Stmt Unit} {what : Expectation} (hbefore : (ofTokens before).mistakes = [])
    (hstatement : ofTokens (statement ++ [semicolon]) = ⟨[s], []⟩) (hwhat : s.ending? = some what)
    (hfirst : Parser.startsStatement first.kind = true) :
    let rest := Parser.skipAfter first.kind behind
    let tokens := before ++ (statement ++ first :: behind)
    (ofTokens tokens).program = (ofTokens before).program ++ (ofTokens rest).program ∧
      (ofTokens tokens).mistakes =
        ⟨behind.length + 1, .expected what⟩ :: (ofTokens rest).mistakes ∧
      (∀ endLine, Mistake.diagnostic tokens endLine ⟨behind.length + 1, .expected what⟩ =
        ⟨first.line, .text first.text, .grammar (.expected what)⟩) ∧
      ((ofTokens (first :: behind)).mistakes = [] →
        ¬ ((ofTokens tokens).mistakes.length = 1 ∧ (ofTokens tokens).program =
          (ofTokens before).program ++ (ofTokens (first :: behind)).program)) := by
  intro rest tokens
  have hparse : ofTokens tokens = _ := ofTokens_skipping hbefore hstatement hwhat hfirst
  refine ⟨by rw [hparse], by rw [hparse], fun endLine => ?_, ?_⟩
  · have hplace : tokens[tokens.length - (behind.length + 1)]? = some first := by
      have hlength : tokens.length = (before ++ statement).length + (behind.length + 1) := by
        simp [tokens, Nat.add_assoc]
      rw [hlength, Nat.add_sub_cancel, show tokens = (before ++ statement) ++ first :: behind by
        simp [tokens], List.getElem?_append_right le_rfl, Nat.sub_self]
      rfl
    unfold Mistake.diagnostic
    rw [hplace]
  · rintro hbehind ⟨hone, hprogram⟩
    rw [hparse] at hone hprogram
    have hrest : (ofTokens rest).mistakes = [] :=
      List.eq_nil_of_length_eq_zero (Nat.succ.inj hone)
    exact program_skipping_ne hfirst hbehind hrest (List.append_cancel_left hprogram)

/-- An assignment without its semicolon in front of a function: the body of the function is
read as if it were no function's, and its closing brace is one more mistake. -/
theorem ofTokens_unended_function :
    let before := (Scan.ofSource "var a = 1;").tokens
    let statement := (Scan.ofSource "a = b").tokens
    let behind := (Scan.ofSource "f() \x7b print a; \x7d var c;").tokens
    let word : Token := ⟨.funKw, "fun", none, 1⟩
    let parse := ofTokens (before ++ (statement ++ word :: behind))
    (ofTokens before).mistakes = [] ∧ (ofTokens (word :: behind)).mistakes = [] ∧
      parse.program.length = 3 ∧
      parse.mistakes = [⟨12, .expected .expressionEnd⟩, ⟨4, .expected .expression⟩] ∧
      ¬ (parse.mistakes.length = 1 ∧
        parse.program = (ofTokens before).program ++ (ofTokens (word :: behind)).program) := by
  intro before statement behind word parse
  have hbefore : (ofTokens before).mistakes = [] := by decide +kernel
  have hbehind : (ofTokens (word :: behind)).mistakes = [] := by decide +kernel
  have hstatement : ofTokens (statement ++ [⟨.semicolon, ";", none, 1⟩]) =
      ⟨[.expression (.assign ⟨⟨"a", 1⟩, ()⟩ (.variable ⟨⟨"b", 1⟩, ()⟩))], []⟩ := by
    refine Parse.ofTokens_spelling ?_ ?_
    · simp only [grammaticalStmts, Stmt.Grammatical, Expr.Grammatical]
      decide
    · unfold Marked
      decide +kernel
  obtain ⟨hprogram, hmistakes, -, hlost⟩ :=
    @ofTokens_unended before statement behind _ word _ _ hbefore hstatement rfl rfl
  refine ⟨hbefore, hbehind, ?_, ?_, hlost hbehind⟩
  · rw [hprogram]
    decide +kernel
  · rw [hmistakes]
    decide +kernel

/-- Two numbers that are printed, the first of them without a semicolon. -/
theorem ofTokens_unended_print :
    let statement := (Scan.ofSource "print 1").tokens
    let behind := (Scan.ofSource "print 2;").tokens
    let parse := ofTokens (statement ++ behind)
    (ofTokens (statement ++ [⟨.semicolon, ";", none, 1⟩])).mistakes = [] ∧
      (ofTokens behind).mistakes = [] ∧ (ofTokens behind).program.length = 1 ∧
      behind.head?.map (fun t => Parser.startsStatement t.kind) = some true ∧
      ¬ (parse.mistakes.length = 1 ∧
        parse.program = (ofTokens []).program ++ (ofTokens behind).program) := by
  intro statement behind parse
  refine ⟨by decide +kernel, by decide +kernel, by decide +kernel, by decide +kernel, ?_⟩
  rintro ⟨-, hprogram⟩
  have hlength : parse.program.length = (ofTokens []).program.length + 1 := by
    rw [hprogram]
    decide +kernel
  revert hlength
  decide +kernel

end Parse

end ClassScript
