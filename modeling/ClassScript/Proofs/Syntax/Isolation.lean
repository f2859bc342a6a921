import ClassScript.Proofs.Syntax.Progress
import ClassScript.Proofs.Syntax.Semicolon
import ClassScript.Proofs.Syntax.Soundness

/-!
# A broken statement is dropped alone

*Rules.*  Up to a semicolon that ends a statement, every rule does the same whatever is
behind the semicolon (`Rules.halt_ofDepth`).  Only a choice looks at what follows, and it
does so behind the semicolon, when nothing can go wrong any more.

*Recovery.*  If a declaration gives up at bare tokens or at their semicolon, and none of
the tokens that are skipped starts a statement, recovery ends right behind the semicolon
(`recover_semicolon`).

*Neighbours.*  Declarations in front are read as far as they go
(`Rules.Complete.programBefore`).  So a statement that is broken in front of its semicolon
leaves no trace but its own reports (`Parse.isolates`).  Whether it contains a closing
brace does not matter.
-/

namespace ClassScript

namespace Parser

section

variable {total n : Nat}

namespace Halts

variable {α : Type}

/-! ## Lists -/

theorem separated {tooMany : SyntaxError} (hmany : tooMany.endsAttempt = false) {item : Parser α}
    (hn : n ≤ total) (hitem : Halts total false n item) (bound count : Nat) :
    Halts total false n (separated tooMany item bound count) := by
  induction bound generalizing count with
  | zero => exact .pure []
  | succ bound ih =>
    unfold Parser.separated
    exact .reportIf hn hmany (hitem.bind fun first => accept (by decide) (.pure _) fun _ =>
      ((ih _).mono (Nat.sub_le _ _)).last)

theorem parenthesized {tooMany : SyntaxError} (hmany : tooMany.endsAttempt = false)
    {ending : Expectation} {item : Parser α} (hn : n ≤ total)
    (hitem : Halts total false n item) (bound : Nat) :
    Halts total false n (parenthesized tooMany ending item bound) := by
  have hclose (items : List α) : Halts total false n
      (Parser.expect .rightParen ending >>= fun paren => Pure.pure (items, paren.line)) :=
    expect (by decide) fun _ => pure _
  refine nextIs fun c => ?_
  cases c with
  | true => exact (pure []).bind hclose
  | false => exact (separated hmany hn hitem bound 0).bind hclose

theorem parameters (hn : n ≤ total) (bound : Nat) : Halts total false n (parameters bound) :=
  (parenthesized rfl hn (name _) bound).last

/-- Operands with operators between them, of which none is a semicolon. -/
theorem leftAssociative {operator? : Token → Option (Expr Unit → Expr Unit → Expr Unit)}
    (hop : ∀ t, t.kind = .semicolon → operator? t = none) {operand : Parser (Expr Unit)}
    (ho : Halts total false n operand) (bound : Nat) :
    Halts total false n (leftAssociative operator? operand bound) := by
  have hfurther : ∀ (bound : Nat) (left : Expr Unit),
      Halts total false n (leftAssociative.further operator? operand bound left) := by
    intro bound
    induction bound with
    | zero => exact fun left => .pure left
    | succ bound ih =>
      exact fun left => .take? hop (.pure left) fun _ join _ _ =>
        (ho.mono (Nat.sub_le _ _)).bind fun right => (ih _).mono (Nat.sub_le _ _)
  exact ho.bind (hfurther bound)

/-- The parameters of a function, whose body is missing. -/
theorem code {β : Type} {takes : Bool} {opening brace : Expectation} (hn : n ≤ total) (bound : Nat)
    (f : List Name → Token → Parser β) :
    Halts total takes n (do
      let _ ← Parser.expect .leftParen opening
      let names ← Parser.parameters bound
      let t ← Parser.expect .leftBrace brace
      f names t) :=
  expect (by decide) fun _ =>
    (parameters ((Nat.sub_le _ _).trans hn) bound).bind fun _ => Halts.brace

end Halts

/-- A semicolon starts no function and is not the name of one. -/
theorem StartsFunction.before_semicolon {us r : List Token} {semicolon : Token}
    (hs : semicolon.kind = .semicolon) (h : StartsFunction (us ++ semicolon :: r)) :
    StartsFunction us := by
  obtain ⟨t, t', rest, hts, ht, ht'⟩ := h
  obtain _ | ⟨u, _ | ⟨u', us⟩⟩ := us
  · obtain ⟨rfl, -⟩ := List.cons.inj hts
    cases hs.symm.trans ht
  · obtain ⟨-, hrest⟩ := List.cons.inj hts
    obtain ⟨rfl, -⟩ := List.cons.inj hrest
    cases hs.symm.trans ht'
  · obtain ⟨rfl, hrest⟩ := List.cons.inj hts
    obtain ⟨rfl, -⟩ := List.cons.inj hrest
    exact ⟨_, _, us, rfl, ht, ht'⟩

/-- Rules that do not look behind the semicolon. -/
structure Rules.Halt (total n : Nat) (rules : Rules) : Prop where
  expression : Halts total false n rules.expression
  statement : Halts total true n rules.statement

namespace Rules.Halt

variable {rules : Rules} (hr : Rules.Halt total n rules) (hn : n < total)
include hr

/-! ## Expressions -/

include hn in
theorem primary : Halts total false (n + 1) (primary rules) := by
  refine .take? (fun t ht => ?_) (.giveUp _) fun t a _ ha => ?_
  · unfold primaryToken?
    rw [ht]
  · dsimp only
    split
    · exact .pure _
    · exact .pure _
    · exact .pure _
    · exact .pure _
    · exact .pure _
    · exact .pure _
    · exact .expect (by decide) fun _ => .expectName fun _ => .pure _
    · exact .code hn.le _ _
    · exact hr.expression.bind fun _ => .expect (by decide) fun _ => .pure _
    · exact .pure _

include hn in
theorem callSuffixes (bound : Nat) (e : Expr Unit) :
    Halts total false (n + 1) (callSuffixes rules bound e) := by
  induction bound generalizing e with
  | zero => exact .pure e
  | succ bound ih =>
    refine .peekTaking fun k => ?_
    split
    · refine .inr ⟨_, _, rfl, by decide, rfl, ?_⟩
      exact (Halts.parenthesized rfl hn.le hr.expression _).bind fun _ =>
        (ih _).mono (Nat.le_succ n)
    · exact .inr ⟨_, _, rfl, by decide, rfl, .expectName fun _ => (ih _).mono (by omega)⟩
    · exact .inl (.pure e)

include hn in
theorem call : Halts total false (n + 1) (call rules) :=
  (hr.primary hn).bind fun e => hr.callSuffixes hn _ e

include hn in
theorem unary : Halts total false (n + 1) (unary rules) := by
  have hoperators : ∀ bound, Halts total false (n + 1) (unary.operators rules bound) := by
    intro bound
    induction bound with
    | zero => exact hr.call hn
    | succ bound ih =>
      refine .take? (fun t ht => ?_) (hr.call hn) fun _ op _ _ =>
        (ih.mono (Nat.le_succ n)).last
      rw [ht]
      rfl
  exact hoperators rules.bound

include hn in
theorem disjunction : Halts total false (n + 1) (disjunction rules) := by
  have hbinary (p : Precedence) (t : Token) (ht : t.kind = .semicolon) : binaryAt p t = none := by
    unfold binaryAt
    rw [ht]
    rfl
  have hlogical (op : LogicalOp) (t : Token) (ht : t.kind = .semicolon) :
      logicalAt op t = none := by
    unfold logicalAt
    rw [ht]
    cases op <;> rfl
  have hfactor : Halts total false (n + 1) (factor rules) :=
    .leftAssociative (hbinary _) (hr.unary hn) _
  have hterm : Halts total false (n + 1) (term rules) := .leftAssociative (hbinary _) hfactor _
  have hcomparison : Halts total false (n + 1) (comparison rules) :=
    .leftAssociative (hbinary _) hterm _
  have hequality : Halts total false (n + 1) (equality rules) :=
    .leftAssociative (hbinary _) hcomparison _
  have hconjunction : Halts total false (n + 1) (conjunction rules) :=
    .leftAssociative (hlogical _) hequality _
  exact .leftAssociative (hlogical _) hconjunction _

include hn in
theorem assignment : Halts total false (n + 1) (assignment rules) := by
  refine (hr.disjunction hn).bind fun target => .accept (by decide) (.pure target) fun _ => ?_
  have herror : SyntaxError.invalidAssignmentTarget.endsAttempt = false := rfl
  refine .reportBehind hn herror hr.expression fun value => ?_
  cases assignment? target value with
  | some e => exact ⟨e, .inl fun s => rfl⟩
  | none => exact ⟨target, .inr fun s => rfl⟩

/-! ## Statements -/

omit hr in
theorem expressionStatement {x : Parser (Expr Unit)} (hx : Halts total false n x) :
    Halts total true n (expressionStatement x) :=
  hx.bind fun _ => .semicolon

theorem optional (kind : TokenKind) : Halts total false n (unlessNext kind rules.expression) := by
  refine .nextIs fun c => ?_
  cases c with
  | true => exact .pure none
  | false => exact hr.expression.last

theorem condition (opening closing : Expectation) :
    Halts total false (n + 1) (condition rules opening closing) :=
  .expect (by decide) fun _ => hr.expression.bind fun _ => .expect (by decide) fun _ => .pure _

theorem varDeclaration : Halts total true n (varDeclaration rules) := by
  refine .expectName fun name => .accept (by decide) ?_ fun _ => ?_
  · exact (Halts.pure none).bind fun e => .semicolon
  · exact (hr.expression.mono (by omega)).map.bind fun e => .semicolon

/-- A choice, which nothing goes on with behind its statement. -/
theorem ifStatement : Halts total true n (ifStatement rules) := by
  refine ((hr.condition _ _).mono (Nat.le_succ n)).bind fun c =>
    hr.statement.bindEnd fun s => ⟨.ifStmt c s [] none, fun mistakes => ?_⟩
  have helifs : elifBranches rules rules.bound ⟨[], mistakes⟩ = .ok [] ⟨[], mistakes⟩ := by
    cases rules.bound <;> rfl
  rw [bind_apply, helifs]
  rfl

theorem whileStatement : Halts total true n (whileStatement rules) :=
  ((hr.condition _ _).mono (Nat.le_succ n)).bind fun _ => hr.statement.lastEnd

include hn in
theorem statementBody : Halts total true (n + 1) (Parser.statement rules) := by
  refine .take? (fun t ht => ?_) (expressionStatement (hr.assignment hn)) fun t a hbare ha => ?_
  · unfold statementWord?
    rw [ht]
  · obtain ⟨-, hbrace, hfor⟩ := hbare t (List.mem_singleton_self t)
    have hword : a = t ∧ t.kind.startsStatement = true := by
      rw [statementWord?_eq] at ha
      split at ha
      · exact ⟨(Option.some.inj ha).symm, ‹_›⟩
      · cases ha
    obtain ⟨rfl, hk⟩ := hword
    dsimp only
    split
    · exact absurd ‹_› hfor
    · exact hr.ifStatement
    · exact hr.expression.bind fun _ => .semicolon
    · exact (hr.optional _).bind fun _ => .semicolon
    · exact .semicolon
    · exact hr.whileStatement
    · have hkind : a.kind = .leftBrace := by
        unfold TokenKind.startsStatement at hk
        split at hk <;> simp_all
      exact absurd hkind hbrace

/-! ## Declarations -/

omit hr in
include hn in
/-- A function, whose body is missing. -/
theorem function (kind : FunctionKind) :
    Halts total true (n + 1) (Parser.function rules kind) :=
  .expectName fun _ => .code hn.le _ _

omit hr in
theorem superclass : Halts total false n superclass :=
  .accept (by decide) (.pure none) fun _ => .expectName fun _ => .pure _

omit hr in
/-- A class, whose body is missing. -/
theorem classDeclaration : Halts total true n (classDeclaration rules) :=
  .expectName fun _ => superclass.bind fun _ => .brace

include hn in
theorem otherDeclaration : Halts total true (n + 1) (otherDeclaration rules) := by
  refine .peekTaking fun k => ?_
  split
  · exact .inr ⟨_, _, rfl, by decide, rfl, classDeclaration⟩
  · exact .inr ⟨_, _, rfl, by decide, rfl, hr.varDeclaration⟩
  · exact .inl (hr.statementBody hn)

include hn in
theorem declarationBody : Halts total true (n + 1) (declarationBody rules) := by
  intro us hbare hus
  by_cases hnext : StartsFunction us
  · obtain ⟨t, t', vs, rfl, ht, ht'⟩ := hnext
    have hfunction : Halts total true (n + 1) (do
        return Stmt.functionDecl (← Parser.function rules .function)) := (function hn _).lastEnd
    refine (hfunction (t' :: vs) hbare.tail ((Nat.lt_succ_self _).trans hus)).of_behind
      (List.suffix_cons t _) .nil fun semicolon r mistakes _ => ?_
    rw [List.map_nil, List.append_nil]
    exact declarationBody_of_function rules ht ht' _ mistakes
  · refine (hr.otherDeclaration hn us hbare hus).congr fun semicolon r mistakes hs => ?_
    exact declarationBody_of_other rules fun hstarts => hnext (hstarts.before_semicolon hs)

end Rules.Halt

/-- Rules that are nested up to a depth halt at a semicolon behind fewer tokens. -/
theorem Rules.halt_ofDepth : ∀ n ≤ total, ∀ depth, n ≤ depth → Rules.Halt total n (.ofDepth depth)
  | 0, _, _, _ => ⟨.zero, .zero⟩
  | n + 1, _, 0, hdepth => absurd hdepth (Nat.not_succ_le_zero n)
  | n + 1, hn, depth + 1, hdepth =>
    have hr := halt_ofDepth n (Nat.le_of_succ_le hn) depth (Nat.le_of_succ_le_succ hdepth)
    ⟨hr.assignment hn, hr.statementBody hn⟩

end

/-! ## Recovery -/

/-- Recovery ends behind the first semicolon if no token on the way starts a statement. -/
theorem skipAfter_semicolon {semicolon : Token} (hs : semicolon.kind = .semicolon)
    (r : List Token) {ts : List Token} (hbare : Bare ts)
    (hstart : ∀ t ∈ ts, startsStatement t.kind = false) {last : TokenKind}
    (hlast : last ≠ .semicolon) : skipAfter last (ts ++ semicolon :: r) = r := by
  induction ts generalizing last with
  | nil =>
    have hbehind : skipAfter .semicolon r = r := by
      cases r with
      | nil => rfl
      | cons t r => exact if_pos (.inl rfl)
    simp [skipAfter, hs, hlast, startsStatement, hbehind]
  | cons t ts ih =>
    have ht : ¬ (last = .semicolon ∨ startsStatement t.kind = true) := by
      rw [hstart t (List.mem_cons_self ..)]
      simp [hlast]
    rw [List.cons_append, skipAfter, if_neg ht]
    exact ih hbare.tail (fun t' ht' => hstart t' (List.mem_cons_of_mem _ ht'))
      (hbare t (List.mem_cons_self ..)).1

theorem recover_semicolon {semicolon : Token} (hs : semicolon.kind = .semicolon) (r : List Token)
    {ts us : List Token} (hbare : Bare ts) (hstart : ∀ t ∈ ts.tail, startsStatement t.kind = false)
    (hus : us <:+ ts) : recover (us ++ semicolon :: r) = r := by
  cases us with
  | nil =>
    cases r with
    | nil => rfl
    | cons t r => simp [recover, skipAfter, hs]
  | cons t us =>
    have htail : us <:+ ts.tail := by
      obtain ⟨vs, rfl⟩ := hus
      cases vs with
      | nil => exact List.suffix_refl us
      | cons v vs => exact ⟨vs ++ [t], by simp⟩
    exact skipAfter_semicolon hs r (hbare.suffix hus).tail
      (fun t' ht' => hstart t' (htail.subset ht'))
      ((hbare.suffix hus) t (List.mem_cons_self ..)).1

/-! ## What is in front -/

/-- A program in front of further tokens is read as it is, and reading goes on behind. -/
theorem Rules.Complete.programBefore {rules : Rules} {n : Nat} (hr : rules.Complete n)
    {ts r : List Token} {body : List (Stmt Unit)} (h : Spells ts (.declarations body))
    (hr' : EndsChoice r) (hn : (ts ++ r).length < n) :
    ∃ count ≤ ts.length, ∀ bound mistakes,
      Parser.program rules (bound + count) ⟨ts ++ r, mistakes⟩ =
        (Parser.program rules bound >>= fun further => pure (body ++ further)) ⟨r, mistakes⟩ := by
  generalize hp : Phrase.declarations body = p at h
  induction h generalizing body with
  | noDeclarations =>
    cases hp
    refine ⟨0, le_rfl, fun bound mistakes => ?_⟩
    simp
  | @declarations ts us s isOpen body hs hbody _ ih =>
    cases hp
    obtain ⟨t, rest, rfl, -⟩ := hs.starts
    simp only [List.length_append, List.length_cons, List.cons_append] at hn
    obtain ⟨count, hcount, hrest⟩ := ih (by simp only [List.length_append]; omega) rfl
    refine ⟨count + 1, ?_, fun bound mistakes => ?_⟩
    · simp only [List.length_append, List.length_cons]
      omega
    · have hfirst := hr.declaration hs (fun _ => hbody.endsChoice_of_declarations hr')
        (by simp only [List.length_append, List.length_cons]; omega) mistakes
      simp only [List.cons_append, List.append_assoc] at hfirst ⊢
      rw [← Nat.add_assoc, program_succ _ _ (List.cons_ne_nil _ _), bind_apply, hfirst]
      simp only [bind_apply, hrest]
      cases Parser.program rules bound ⟨r, mistakes⟩ <;> simp [Pure.pure, EStateM.pure]
  | _ => cases hp

/-- A declaration that is dropped leaves nothing in the program. -/
theorem program_dropped {rules : Rules} {bound : Nat} {s s' : ParseState} (hs : s.rest ≠ [])
    (h : rules.declaration s = .ok none s') :
    program rules (bound + 1) s = program rules bound s' := by
  rw [program_succ _ _ hs, bind_apply, h]
  show (program rules bound >>= fun further => pure further) s' = _
  rw [bind_pure]

theorem program_nil (rules : Rules) (bound : Nat) (mistakes : List Mistake) :
    program rules bound ⟨[], mistakes⟩ = .ok [] ⟨[], mistakes⟩ := by
  cases bound <;> rfl

/-- Bare tokens up to their semicolon are read as a statement, or they are dropped and
reading goes on right behind the semicolon. -/
theorem declaration_before {broken : List Token} {semicolon : Token}
    (hs : semicolon.kind = .semicolon) (hbare : Bare broken)
    (hstart : ∀ t ∈ broken.tail, startsStatement t.kind = false) {depth : Nat}
    (hdepth : broken.length ≤ depth) :
    (∃ stmt log, Remarks (broken.length + 1) log ∧
      (Rules.ofDepth (depth + 1)).declaration ⟨broken ++ [semicolon], []⟩ =
        .ok (some stmt) ⟨[], log⟩) ∨
    ∃ log what left, Remarks (broken.length + 1) log ∧ 0 < left ∧ left ≤ broken.length + 1 ∧
      ∀ r mistakes, (Rules.ofDepth (depth + 1)).declaration ⟨broken ++ semicolon :: r, mistakes⟩ =
        .ok none ⟨r, mistakes ++
          (log ++ [Mistake.mk left (.expected what)]).map (Mistake.shift r.length)⟩ := by
  have hhalt : Rules.Halt (broken.length + 1) broken.length (.ofDepth depth) :=
    Rules.halt_ofDepth _ (Nat.le_succ _) _ hdepth
  obtain ⟨o, ho, hresult⟩ := hhalt.declarationBody (Nat.lt_succ_self _) broken hbare
    (Nat.lt_succ_self _)
  cases o with
  | waits stmt rest log => exact absurd ho.1.symm Bool.false_ne_true
  | ends stmt log =>
    refine .inl ⟨stmt, log, ho.2, ?_⟩
    show Parser.declaration _ _ = _
    unfold Parser.declaration
    rw [hresult semicolon [] [] hs rfl]
    simp [Fate.result, Mistake.map_shift_zero]
  | givesUp what rest log =>
    obtain ⟨hrest, hlog⟩ := ho
    refine .inr ⟨log, what, rest.length + 1, hlog, Nat.succ_pos _,
      Nat.succ_le_succ hrest.length_le, fun r mistakes => ?_⟩
    show Parser.declaration _ _ = _
    unfold Parser.declaration
    rw [hresult semicolon r mistakes hs trivial]
    simp only [Fate.result, recover_semicolon hs r hbare hstart hrest]

end Parser

namespace Parse

section

variable {before broken behind : List Token} {semicolon : Token}
  (hs : semicolon.kind = .semicolon) (hbare : Parser.Bare broken)
  (hstart : ∀ t ∈ broken.tail, Parser.startsStatement t.kind = false)
  (hbroken : ∃ m ∈ (ofTokens (broken ++ [semicolon])).mistakes, m.error.endsAttempt = true)
include hs hbare hstart hbroken

/-- A broken statement is dropped for one mistake, behind some remarks, whatever is behind
its semicolon. -/
theorem exists_dropped (depth : Nat) (hdepth : broken.length < depth) :
    ∃ log what left, (ofTokens (broken ++ [semicolon])).mistakes = log ++ [⟨left, .expected what⟩] ∧
      Parser.Remarks (broken.length + 1) log ∧ 0 < left ∧ left ≤ broken.length + 1 ∧
      ∀ r mistakes, (Parser.Rules.ofDepth (depth + 1)).declaration
          ⟨broken ++ semicolon :: r, mistakes⟩ =
        .ok none ⟨r, mistakes ++
          (ofTokens (broken ++ [semicolon])).mistakes.map (Mistake.shift r.length)⟩ := by
  have hne : broken ++ [semicolon] ≠ [] := by simp
  have halone : Parser.program (.ofDepth (depth + 1)) (broken.length + 1)
      ⟨broken ++ [semicolon], []⟩ = .ok (ofTokens (broken ++ [semicolon])).program
        ⟨[], (ofTokens (broken ++ [semicolon])).mistakes⟩ :=
    program_ofDepth (by simpa using hdepth) (by simp)
  rcases Parser.declaration_before hs hbare hstart hdepth.le with
    ⟨stmt, log, hlog, hread⟩ | ⟨log, what, left, hlog, hpos, hleft, hdrop⟩
  · rw [Parser.program_succ _ _ hne, Parser.bind_apply, hread] at halone
    simp only [Parser.bind_apply, Parser.program_nil] at halone
    have hmistakes : log = (ofTokens (broken ++ [semicolon])).mistakes :=
      congrArg ParseState.mistakes (EStateM.Result.ok.inj halone).2
    obtain ⟨m, hm, hends⟩ := hbroken
    rw [← hmistakes] at hm
    exact absurd hends (by simp [(hlog m hm).2.2])
  · rw [Parser.program_dropped hne (hdrop [] []), Parser.program_nil] at halone
    have hmistakes : (ofTokens (broken ++ [semicolon])).mistakes =
        log ++ [⟨left, .expected what⟩] := by
      have hstate := congrArg ParseState.mistakes (EStateM.Result.ok.inj halone).2
      rw [List.nil_append, List.length_nil, Mistake.map_shift_zero] at hstate
      exact hstate.symm
    exact ⟨log, what, left, hmistakes, hlog, hpos, hleft, hmistakes ▸ hdrop⟩

/-- What is in front of a broken statement and what is behind it are read as if it were not
there. -/
theorem ofTokens_around (hbefore : (ofTokens before).mistakes = [])
    (hbehind : (ofTokens behind).mistakes = []) (hchoice : EndsChoice broken) :
    ofTokens (before ++ (broken ++ [semicolon]) ++ behind) =
      ⟨(ofTokens before).program ++ (ofTokens behind).program,
        (ofTokens (broken ++ [semicolon])).mistakes.map (Mistake.shift behind.length)⟩ := by
  have hlist : before ++ (broken ++ [semicolon]) ++ behind =
      before ++ (broken ++ semicolon :: behind) := by simp
  rw [hlist]
  generalize htokens : before ++ (broken ++ semicolon :: behind) = tokens
  have hlength : tokens.length = before.length + (broken.length + (behind.length + 1)) := by
    simp [← htokens]
  have hnext : EndsChoice (broken ++ semicolon :: behind) := by
    intro t us ht
    cases broken with
    | nil =>
      rw [← (List.cons.inj ht).1, hs]
      decide
    | cons t' broken => exact hchoice t broken (by rw [(List.cons.inj ht).1])
  have hne : broken ++ semicolon :: behind ≠ [] := by simp
  -- The rules are nested deep enough for all tokens, also where they read fewer of them.
  have hr := Parser.Rules.complete_ofDepth (tokens.length + 1)
  obtain ⟨log, what, left, -, -, -, -, hdrop⟩ :=
    exists_dropped hs hbare hstart hbroken tokens.length (by omega)
  obtain ⟨count, hcount, hfirst⟩ := hr.programBefore (spells_of_mistakes hbefore) hnext
    (by rw [htokens]; exact Nat.lt_succ_self _)
  obtain ⟨bound, hbound⟩ : ∃ bound, tokens.length = bound + 1 + count :=
    ⟨tokens.length - count - 1, by omega⟩
  have hlast := hr.program (spells_of_mistakes hbehind) (by omega) bound (by omega)
    ([] ++ (ofTokens (broken ++ [semicolon])).mistakes.map (Mistake.shift behind.length))
  have hrun := hfirst (bound + 1) []
  rw [List.append_nil] at hlast
  rw [Parser.bind_apply, Parser.program_dropped hne (hdrop behind []), hlast, htokens, ← hbound,
    program_ofDepth (Nat.lt_succ_self tokens.length) le_rfl] at hrun
  obtain ⟨hprogram, hstate⟩ := EStateM.Result.ok.inj hrun
  have hmistakes := congrArg ParseState.mistakes hstate
  cases hparse : ofTokens tokens
  rw [hparse] at hprogram hmistakes
  exact congrArg₂ Parse.mk hprogram hmistakes

end

/-- A statement that is broken in front of its semicolon is dropped alone.  What is in
front of it and what is behind it are read as if it were not there, and the reports are
those that are made of it alone. -/
theorem isolates {before broken behind : List Token} {semicolon : Token}
    (hbefore : (ofTokens before).mistakes = []) (hbehind : (ofTokens behind).mistakes = [])
    (hs : semicolon.kind = .semicolon) (hchoice : EndsChoice broken)
    (hbare : Parser.Bare broken)
    (hstart : ∀ t ∈ broken.tail, Parser.startsStatement t.kind = false)
    (hbroken : ∃ m ∈ (ofTokens (broken ++ [semicolon])).mistakes, m.error.endsAttempt = true) :
    let tokens := before ++ (broken ++ [semicolon]) ++ behind
    (ofTokens tokens).program = (ofTokens before).program ++ (ofTokens behind).program ∧
      (ofTokens tokens).mistakes =
        (ofTokens (broken ++ [semicolon])).mistakes.map (Mistake.shift behind.length) ∧
      (∀ endLine endLine', (ofTokens tokens).mistakes.map (Mistake.diagnostic tokens endLine) =
        (ofTokens (broken ++ [semicolon])).mistakes.map
          (Mistake.diagnostic (broken ++ [semicolon]) endLine')) ∧
      (ofTokens tokens).mistakes.countP (fun m => m.error.endsAttempt) = 1 := by
  intro tokens
  obtain ⟨log, what, left, hmistakes, hlog, hpos, hleft, -⟩ :=
    exists_dropped hs hbare hstart hbroken _ (Nat.lt_succ_self _)
  have hplaces : ∀ m ∈ (ofTokens (broken ++ [semicolon])).mistakes,
      0 < m.left ∧ m.left ≤ (broken ++ [semicolon]).length := by
    rw [hmistakes, List.length_append, List.length_singleton]
    refine List.forall_mem_append.mpr ⟨fun m hm => ⟨(hlog m hm).1, (hlog m hm).2.1⟩, ?_⟩
    exact List.forall_mem_singleton.mpr ⟨hpos, hleft⟩
  have hremarks : log.countP (fun m => m.error.endsAttempt) = 0 :=
    List.countP_eq_zero.mpr fun m hm => by simp [(hlog m hm).2.2]
  rw [ofTokens_around hs hbare hstart hbroken hbefore hbehind hchoice]
  refine ⟨rfl, rfl, fun endLine endLine' => ?_, ?_⟩
  · rw [List.map_map]
    exact List.map_congr_left fun m hm =>
      Mistake.diagnostic_shift (hplaces m hm).1 (hplaces m hm).2 endLine endLine'
  · rw [List.countP_map, hmistakes, List.countP_append]
    show log.countP (fun m => m.error.endsAttempt) + 1 = 1
    rw [hremarks]

/-- A branch in which two mistakes are made, between a choice and a function. -/
theorem isolates_branch :
    let before := (Scan.ofSource "var a = 1; if (a) print a;").tokens
    let broken := (Scan.ofSource "if (a) f(1 = 2, (3 4").tokens
    let behind := (Scan.ofSource "fun f(x) \x7b return x; \x7d").tokens
    let tokens := before ++ (broken ++ [⟨.semicolon, ";", none, 1⟩]) ++ behind
    (ofTokens tokens).program = (ofTokens before).program ++ (ofTokens behind).program ∧
      (ofTokens tokens).program.length = 3 ∧
      (ofTokens tokens).mistakes.map Mistake.left = [7 + behind.length, 2 + behind.length] := by
  intro before broken behind tokens
  have hchoice : EndsChoice broken := by
    intro t us ht
    have hkind : broken.head?.map Token.kind = some .ifKw := by decide +kernel
    rw [ht] at hkind
    rw [Option.some.inj hkind]
    decide
  have hbare : Parser.Bare broken := by
    unfold Parser.Bare
    decide +kernel
  obtain ⟨hprogram, hmistakes, -⟩ := @isolates before broken behind ⟨.semicolon, ";", none, 1⟩
    (by decide +kernel) (by decide +kernel) rfl hchoice hbare (by decide +kernel)
    (by decide +kernel)
  refine ⟨hprogram, ?_, ?_⟩
  · rw [hprogram]
    decide +kernel
  · rw [hmistakes]
    decide +kernel

end Parse

end ClassScript
