import ClassScript.Proofs.Syntax.Watching
import ClassScript.Token.Scan

/-!
# Reading goes forward

Whatever a list of tokens is like, it is read to its end, and a rule never goes back.
Two things keep the loops from standing still.  A round of a loop takes a token, and an
attempt to read a declaration takes one too, because recovery begins with an
unconditional step (`recover_length`) and no loop attempts anything at the end of the
tokens.

The families of rules that *read* alike (`Rules.Read`) are closed under the grammar, one
lemma for each rule.  From rules that read alike on fewer than `n` tokens come rules that
read alike on `n` tokens, since rules contain each other only behind a token.  So the
depth of the rules and the bounds of their loops never show (`Rules.read_watching`).

Where a rule gives up the nearest attempt is dropped, at whatever depth it was made.
`Parse.goes_forward` says that of all runs over a list of tokens: they end, the rules
give up at ever later tokens, and what is dropped is what they gave up.
-/

namespace ClassScript

namespace Parser

section

variable {ι : Type} {watch : ι → Watch} {total n : Nat}

namespace Reads

variable {α : Type}

/-! ## Lists -/

/-- Lists are read alike where their items are. -/
theorem separated {tooMany : SyntaxError} (hmany : tooMany.endsAttempt = false)
    {item : ι → Parser α} (hitem : Reads watch total n 0 item)
    (hn : n ≤ total + 1) {bound : ι → Nat} (hbound : ∀ i, n ≤ bound i) (count : Nat) :
    Reads watch total n 0 fun i => separated tooMany (item i) (bound i) count := by
  induction n generalizing bound count with
  | zero => exact .zero
  | succ n ih =>
    have hrest : bound = fun i => bound i - 1 + 1 := by
      funext i
      have hi := hbound i
      omega
    rw [hrest]
    unfold Parser.separated
    refine .reportIf hn hmany (hitem.bind fun first => accept (.pure _) fun _ => .last ?_)
    refine ih (hitem.mono (Nat.le_succ n)) (by omega) (fun i => ?_) _
    have hi := hbound i
    omega

/-- A list in parentheses takes a token at least. -/
theorem parenthesized {tooMany : SyntaxError} (hmany : tooMany.endsAttempt = false)
    {ending : Expectation} {item : ι → Parser α} (hitem : Reads watch total n 0 item)
    (hn : n ≤ total + 1) {bound : ι → Nat} (hbound : ∀ i, n ≤ bound i) :
    Reads watch total n 1 fun i => parenthesized tooMany ending (item i) (bound i) := by
  refine nextIs fun c => ?_
  have hclose (items : List α) : Reads watch total n 1 fun _ : ι =>
      (Parser.expect .rightParen ending >>= fun paren => Pure.pure (items, paren.line)) :=
    expect fun _ => pure _
  cases c with
  | true => exact (pure []).bind hclose
  | false => exact (separated hmany hitem hn hbound 0).bind hclose

theorem parameters (hn : n ≤ total + 1) {bound : ι → Nat} (hbound : ∀ i, n ≤ bound i) :
    Reads watch total n 1 fun i => parameters (bound i) :=
  .last (parenthesized rfl ((name _).imp (Nat.zero_le 1)) hn hbound)

/-- Operands with operators between them. -/
theorem leftAssociative {operator? : Token → Option (Expr Unit → Expr Unit → Expr Unit)}
    {operand : ι → Parser (Expr Unit)} (ho : Reads watch total n 0 operand) {bound : ι → Nat}
    (hbound : ∀ i, n ≤ bound i + 1) :
    Reads watch total n 0 fun i => leftAssociative operator? (operand i) (bound i) := by
  have hfurther : ∀ m ≤ n, ∀ bound : ι → Nat, (∀ i, m ≤ bound i + 1) → ∀ left,
      Reads watch total m 0 fun i =>
        leftAssociative.further operator? (operand i) (bound i) left := by
    intro m
    induction m with
    | zero => exact fun _ _ _ _ => .zero
    | succ m ih =>
      intro hm bound hbound left
      refine .rounds (y := fun i bound => leftAssociative.further operator? (operand i) bound left)
        hbound (.of_pure left fun i _ => ?_) fun rest hrest => ?_
      · cases bound i <;> rfl
      · refine .take? (.pure left) fun join => (ho.mono (by omega)).bind fun right => ?_
        exact ih (by omega) rest hrest _
  exact ho.bind (hfurther n le_rfl bound hbound)

end Reads

/-! ## Recovery -/

/-- Skipping drops tokens from the front only. -/
theorem skipAfter_suffix (last : TokenKind) (ts : List Token) : skipAfter last ts <:+ ts := by
  induction ts generalizing last with
  | nil => exact List.suffix_refl _
  | cons t us ih =>
    unfold skipAfter
    split
    · exact List.suffix_refl _
    · exact (ih t.kind).trans (List.suffix_cons t us)

/-- So does recovery. -/
theorem recover_suffix (ts : List Token) : recover ts <:+ ts := by
  cases ts with
  | nil => exact List.suffix_refl _
  | cons t us => exact (skipAfter_suffix t.kind us).trans (List.suffix_cons t us)

/-- Recovery takes a token if there is one. -/
theorem recover_length (ts : List Token) :
    (recover ts).length < ts.length ∨ ts.length = 0 ∧ (recover ts).length = 0 := by
  cases ts with
  | nil => exact .inr ⟨rfl, rfl⟩
  | cons t us => exact .inl (Nat.lt_succ_of_le (skipAfter_suffix t.kind us).length_le)

/-- A program is a declaration and the program behind it. -/
theorem program_succ (rules : Rules) (bound : Nat) {s : ParseState} (hs : s.rest ≠ []) :
    program rules (bound + 1) s = (rules.declaration >>= fun first => program rules bound >>=
      fun further => pure (first.toList ++ further)) s := by
  obtain ⟨rest, mistakes⟩ := s
  cases rest with
  | nil => exact absurd rfl hs
  | cons t ts => rfl

/-- Families of rules that come to the same on fewer than `n` tokens.  An attempt to read
a declaration is only made where there is a token. -/
structure Rules.Read (watch : ι → Watch) (total n : Nat) (rules : ι → Rules) : Prop where
  bound : ∀ i, n ≤ (rules i).bound
  expression : Reads watch total n 0 fun i => (rules i).expression
  statement : Reads watch total n 1 fun i => (rules i).statement
  declaration : ∀ ts : List Token, ts ≠ [] → ts.length < n → ∃ o rest log,
    (Outcome.yields o rest log).Fits total 1 ts ∧ ∀ i mistakes,
      (rules i).declaration ⟨ts, mistakes⟩ = (Outcome.yields o rest log).result (watch i) mistakes

namespace Rules.Read

variable {rules : ι → Rules} (hr : Rules.Read watch total n rules) (hn : n ≤ total)
include hr

theorem bound_succ (i : ι) : n + 1 ≤ (rules i).bound + 1 := Nat.succ_le_succ (hr.bound i)

/-! ## Blocks and functions -/

/-- The statements of a block may be none. -/
theorem statements {m : Nat} (hm : m ≤ n) {bound : ι → Nat} (hbound : ∀ i, m ≤ bound i + 1) :
    Reads watch total m 0 fun i => block.statements (rules i) (bound i) := by
  induction m generalizing bound with
  | zero => exact .zero
  | succ m ih =>
    refine .rounds hbound (.of_pure [] fun i _ => ?_) fun rest hrest => ?_
    · cases bound i <;> rfl
    · refine .peekSome (.pure []) fun kind ts hne hts => ?_
      split
      · exact .of_pure [] fun _ _ => rfl
      · exact .of_pure [] fun _ _ => rfl
      · have hrest : Reads watch total m 0 fun i => block.statements (rules i) (rest i) :=
          ih (by omega) hrest
        obtain ⟨o, us, log, ho⟩ := hr.declaration ts hne (by omega)
        have hfirst : ReadsAt watch total 1 ts fun i => (rules i).declaration := ⟨_, ho⟩
        exact hfirst.bind (fun o us hus => hrest.last us (by omega)) (Nat.zero_le _)

/-- A block takes its closing brace. -/
theorem block : Reads watch total n 1 fun i => block (rules i) :=
  (hr.statements le_rfl fun i => (hr.bound i).trans (Nat.le_succ _)).bind fun body =>
    .expect fun _ => .pure body

include hn in
/-- The parameters and the body of a function. -/
theorem code {α : Type} (opening brace : Expectation) (f : List Name → List (Stmt Unit) → α) :
    Reads watch total (n + 1) 1 fun i => do
      let _ ← expect .leftParen opening
      let names ← parameters (rules i).bound
      let _ ← expect .leftBrace brace
      let body ← Parser.block (rules i)
      return f names body := by
  refine .expect fun _ => (Reads.parameters (by omega) hr.bound).bindTaking fun names =>
    .expect fun _ => .last ?_
  exact (hr.block.mono (by omega)).imp (Nat.zero_le 1)

/-! ## Expressions -/

include hn in
theorem primary : Reads watch total (n + 1) 1 fun i => primary (rules i) := by
  refine .take? (.giveUp _) fun t => ?_
  dsimp only
  split
  · exact .pure _
  · exact .pure _
  · exact .pure _
  · exact .pure _
  · exact .pure _
  · exact .pure _
  · exact .expect fun _ => .expectName fun name => .pure _
  · exact ((hr.code hn _ _ (fun names body => Expr.lambda t.line names body)).mono
      (Nat.le_succ _)).imp (Nat.zero_le 1)
  · exact hr.expression.bind fun e => .expect fun _ => .pure _
  · exact .pure _

include hn in
/-- The calls and properties behind a callee may be none. -/
theorem callSuffixes {m : Nat} (hm : m ≤ n + 1) {bound : ι → Nat} (hbound : ∀ i, m ≤ bound i + 1)
    (e : Expr Unit) : Reads watch total m 0 fun i => callSuffixes (rules i) (bound i) e := by
  induction m generalizing bound e with
  | zero => exact .zero
  | succ m ih =>
    refine .rounds (y := fun i bound => Parser.callSuffixes (rules i) bound e) hbound
      (.of_pure e fun i _ => ?_) fun rest hrest => ?_
    · cases bound i <;> rfl
    · have hagain (e : Expr Unit) :
          Reads watch total m 0 fun i => Parser.callSuffixes (rules i) (rest i) e :=
        ih (by omega) hrest e
      refine .peekTaking fun k => ?_
      split
      · refine .inr ⟨_, _, rfl, fun _ => rfl, ?_⟩
        refine (Reads.parenthesized rfl (hr.expression.mono (by omega)) (by omega)
          fun i => (by omega : m ≤ n).trans (hr.bound i)).bindTaking fun arguments => ?_
        exact (hagain _).mono (by omega)
      · refine .inr ⟨_, _, rfl, fun _ => rfl, .expectName fun name => ?_⟩
        exact (hagain _).mono (by omega)
      · exact .inl (.pure e)

include hn in
theorem call : Reads watch total (n + 1) 0 fun i => call (rules i) :=
  ((hr.primary hn).imp (Nat.zero_le 1)).bind fun e => hr.callSuffixes hn le_rfl hr.bound_succ e

include hn in
theorem unary : Reads watch total (n + 1) 0 fun i => unary (rules i) := by
  have hoperators : ∀ m ≤ n + 1, ∀ bound : ι → Nat, (∀ i, m ≤ bound i + 1) →
      Reads watch total m 0 fun i => unary.operators (rules i) (bound i) := by
    intro m
    induction m with
    | zero => exact fun _ _ _ => .zero
    | succ m ih =>
      intro hm bound hbound
      have hcall : Reads watch total (m + 1) 0 fun i => Parser.call (rules i) :=
        (hr.call hn).mono hm
      refine .rounds hbound ((hcall [] (Nat.succ_pos m)).congr fun i _ => ?_) fun rest hrest => ?_
      · cases bound i <;> rfl
      · exact .take? hcall fun op => .last (ih (by omega) rest hrest)
  exact hoperators (n + 1) le_rfl _ hr.bound_succ

include hn in
theorem disjunction : Reads watch total (n + 1) 0 fun i => disjunction (rules i) :=
  have hfactor := Reads.leftAssociative (hr.unary hn) hr.bound_succ
  have hterm := Reads.leftAssociative hfactor hr.bound_succ
  have hcomparison := Reads.leftAssociative hterm hr.bound_succ
  have hequality := Reads.leftAssociative hcomparison hr.bound_succ
  have hconjunction := Reads.leftAssociative hequality hr.bound_succ
  Reads.leftAssociative hconjunction hr.bound_succ

include hn in
theorem assignment : Reads watch total (n + 1) 0 fun i => assignment (rules i) := by
  refine (hr.disjunction hn).bind fun target => .accept (.pure target) fun equal => ?_
  refine .get (fun i s s' h => by simp only [h]) fun s hs => hr.expression.bind fun value => ?_
  split
  · exact .pure _
  · exact (Reads.reportAt (by omega) rfl).bind fun _ => .pure target

/-! ## Statements -/

omit hr in
/-- An expression as a statement takes its semicolon. -/
theorem expressionStatement {x : ι → Parser (Expr Unit)} (hx : Reads watch total n 0 x) :
    Reads watch total n 1 fun i => expressionStatement (x i) :=
  hx.bind fun _ => .expect fun _ => .pure _

theorem optional (kind : TokenKind) :
    Reads watch total n 0 fun i => unlessNext kind (rules i).expression := by
  refine .nextIs fun c => ?_
  cases c with
  | true => exact .pure none
  | false => exact hr.expression.last

theorem condition (opening closing : Expectation) :
    Reads watch total (n + 1) 1 fun i => condition (rules i) opening closing :=
  .expect fun _ => hr.expression.bind fun _ => .expect fun _ => .pure _

theorem varDeclaration : Reads watch total n 1 fun i => varDeclaration (rules i) := by
  refine .expectName fun name => .accept ?_ fun _ => ?_
  · exact (Reads.pure none).bind fun e => .expect fun _ => .pure _
  · exact (hr.expression.mono (by omega)).map.bind fun e => .expect fun _ => .pure _

theorem forInitializer : Reads watch total n 1 fun i => forInitializer (rules i) := by
  refine .peekTaking fun k => ?_
  split
  · exact .inr ⟨_, _, rfl, fun _ => rfl, .pure none⟩
  · refine .inr ⟨_, _, rfl, fun _ => rfl, ?_⟩
    exact ((hr.varDeclaration.mono (Nat.sub_le _ _)).imp (Nat.zero_le 1)).last
  · exact .inl (expressionStatement hr.expression).last

theorem forStatement : Reads watch total n 1 fun i => forStatement (rules i) := by
  refine .expect fun _ => ((hr.forInitializer.mono (Nat.sub_le _ _)).imp (Nat.zero_le 1)).bind
    fun start => ((hr.optional _).mono (Nat.sub_le _ _)).bind fun c => .expect fun _ =>
      ((hr.optional _).mono (by omega)).bind fun step => .expect fun _ => ?_
  exact ((hr.statement.mono (by omega)).imp (Nat.zero_le 1)).last

/-- The branches of a choice may be none. -/
theorem elifBranches {m : Nat} (hm : m ≤ n + 1) {bound : ι → Nat} (hbound : ∀ i, m ≤ bound i + 1) :
    Reads watch total m 0 fun i => elifBranches (rules i) (bound i) := by
  induction m generalizing bound with
  | zero => exact .zero
  | succ m ih =>
    refine .rounds hbound (.of_pure [] fun i _ => ?_) fun rest hrest => ?_
    · cases bound i <;> rfl
    · refine .accept (.pure []) fun _ => ?_
      refine (((hr.condition _ _).mono (by omega)).imp (Nat.zero_le 1)).bind fun c =>
        ((hr.statement.mono (by omega)).imp (Nat.zero_le 1)).bind fun s => .last ?_
      exact ih (by omega) hrest

theorem ifStatement : Reads watch total n 1 fun i => ifStatement (rules i) := by
  refine ((hr.condition _ _).mono (Nat.le_succ n)).bindTaking fun c =>
    ((hr.statement.mono (Nat.sub_le _ _)).imp (Nat.zero_le 1)).bind fun s =>
      (hr.elifBranches (by omega) fun i => ?_).bind fun elifs => .accept ?_ fun _ => ?_
  · have hi := hr.bound i
    omega
  · exact (Reads.pure none).bind fun e => .pure _
  · exact ((hr.statement.mono (by omega)).imp (Nat.zero_le 1)).map.bind fun e => .pure _

theorem whileStatement : Reads watch total n 1 fun i => whileStatement (rules i) :=
  ((hr.condition _ _).mono (Nat.le_succ n)).bindTaking fun _ =>
    ((hr.statement.mono (Nat.sub_le _ _)).imp (Nat.zero_le 1)).last

include hn in
theorem statementBody : Reads watch total (n + 1) 1 fun i => Parser.statement (rules i) := by
  refine .take? (expressionStatement (hr.assignment hn)) fun t => ?_
  dsimp only
  split
  · exact hr.forStatement.imp (Nat.zero_le 1)
  · exact hr.ifStatement.imp (Nat.zero_le 1)
  · exact hr.expression.bind fun e => .expect fun _ => .pure _
  · exact (hr.optional _).bind fun e => .expect fun _ => .pure _
  · exact .expect fun _ => .pure _
  · exact hr.whileStatement.imp (Nat.zero_le 1)
  · exact (hr.block.imp (Nat.zero_le 1)).last

/-! ## Declarations -/

include hn in
theorem function (kind : FunctionKind) :
    Reads watch total (n + 1) 1 fun i => Parser.function (rules i) kind :=
  .expectName fun name => ((hr.code hn _ _ (Function.mk name)).mono (Nat.le_succ n)).imp
    (Nat.zero_le 1)

include hn in
/-- The methods of a class may be none. -/
theorem methods {m : Nat} (hm : m ≤ n) {bound : ι → Nat} (hbound : ∀ i, m ≤ bound i + 1) :
    Reads watch total m 0 fun i => methods (rules i) (bound i) := by
  induction m generalizing bound with
  | zero => exact .zero
  | succ m ih =>
    refine .rounds hbound (.of_pure [] fun i _ => ?_) fun rest hrest => ?_
    · cases bound i <;> rfl
    · refine .peek fun k => ?_
      split
      · exact .pure []
      · exact .pure []
      · exact ((hr.function hn _).mono (by omega)).bindTaking fun f =>
          (ih (by omega) hrest).last

omit hr in
/-- A class may have no superclass. -/
theorem superclass : Reads watch total n 0 fun _ : ι => superclass :=
  .accept (.pure none) fun _ => .expectName fun _ => .pure _

include hn in
theorem classDeclaration : Reads watch total n 1 fun i => classDeclaration (rules i) := by
  refine .expectName fun name => superclass.bind fun parent => .expect fun _ =>
    (hr.methods hn (by omega) fun i => ?_).bind fun fs => .expect fun _ => .pure _
  have hi := hr.bound i
  omega

include hn in
theorem otherDeclaration : Reads watch total (n + 1) 1 fun i => otherDeclaration (rules i) := by
  refine .peekTaking fun k => ?_
  split
  · exact .inr ⟨_, _, rfl, fun _ => rfl, (hr.classDeclaration hn).imp (Nat.zero_le 1)⟩
  · exact .inr ⟨_, _, rfl, fun _ => rfl, hr.varDeclaration.imp (Nat.zero_le 1)⟩
  · exact .inl (hr.statementBody hn)

include hn in
theorem declarationBody : Reads watch total (n + 1) 1 fun i => declarationBody (rules i) := by
  intro ts hts
  by_cases hnext : StartsFunction ts
  · obtain ⟨t, t', us, rfl, ht, ht'⟩ := hnext
    have hfunction : Reads watch total (n + 1) 1 fun i => do
        return Stmt.functionDecl (← Parser.function (rules i) .function) :=
      (hr.function hn _).last
    refine (hfunction (t' :: us) ((Nat.lt_succ_self _).trans hts)).of_behind
      (List.suffix_cons t _) (.done (by simp)) (by simp) fun i mistakes => ?_
    rw [declarationBody_of_function (rules i) ht ht', List.flatMap_nil, List.append_nil]
  · exact (hr.otherDeclaration hn ts hts).congr fun i mistakes =>
      declarationBody_of_other (rules i) hnext

include hn in
/-- An attempt that is given up is dropped, and reading goes on behind the place where
something was missing. -/
theorem declarationOrSkip (ts : List Token) (hne : ts ≠ []) (hts : ts.length < n + 1) :
    ∃ o rest log, (Outcome.yields o rest log).Fits total 1 ts ∧ ∀ i mistakes,
      watched (watch i) (Parser.declaration (rules i)) ⟨ts, mistakes⟩ =
        (Outcome.yields o rest log).result (watch i) mistakes := by
  have hpos := List.length_pos_iff.mpr hne
  obtain ⟨o, ho, hresult⟩ := hr.declarationBody hn ts hts
  cases o with
  | yields s rest log =>
    obtain ⟨hrest, hlength, hlog⟩ := ho
    have hsound : (Entry.kept ts.length s rest.length).Sound total := ⟨by omega, by omega⟩
    refine ⟨some s, rest, log ++ [.kept ts.length s rest.length],
      ⟨hrest, hlength, hlog.append (.kept hsound le_rfl (.done le_rfl))⟩, fun i mistakes => ?_⟩
    simp [watched, Parser.declaration, hresult, Outcome.result, Entry.reports, Entry.mistakes,
      Entry.attempts]
  | givesUp what rest log =>
    obtain ⟨hrest, hlog⟩ := ho
    have hlength := hrest.length_le
    have hbehind := recover_length rest
    have hsound : (Entry.dropped what rest.length ts.length (recover rest).length).Sound total :=
      ⟨by omega, by omega, hlength, by omega⟩
    refine ⟨none, recover rest, log ++ [.dropped what rest.length ts.length (recover rest).length],
      ⟨(recover_suffix rest).trans hrest, by omega,
        hlog.append (.dropped hsound le_rfl (.done le_rfl))⟩, fun i mistakes => ?_⟩
    simp [watched, Parser.declaration, hresult, Outcome.result, Entry.reports, Entry.mistakes,
      Entry.attempts]

/-- A program is read to the end of the tokens, with one log for all runs. -/
theorem program {m : Nat} (hm : m ≤ n) {bound : ι → Nat} (hbound : ∀ i, m ≤ bound i + 1)
    (ts : List Token) (hts : ts.length < m) : ∃ p log, Falls total ts.length log 0 ∧
      ∀ i mistakes, program (rules i) (bound i) ⟨ts, mistakes⟩ =
        .ok p ⟨[], mistakes ++ log.flatMap (Entry.reports (watch i))⟩ := by
  induction m generalizing bound ts with
  | zero => exact absurd hts (Nat.not_lt_zero _)
  | succ m ih =>
    cases ts with
    | nil =>
      refine ⟨[], [], .done le_rfl, fun i mistakes => ?_⟩
      cases bound i <;> simp <;> rfl
    | cons t us =>
      obtain ⟨o, rest, log, ⟨-, hlength, hlog⟩, hresult⟩ :=
        hr.declaration (t :: us) nofun (by omega)
      simp only [List.length_cons] at hlength hts
      have hrounds (i : ι) : m ≤ bound i - 1 + 1 := by
        have hi := hbound i
        omega
      obtain ⟨p, log', hlog', hresult'⟩ := ih (by omega) hrounds rest (by omega)
      refine ⟨o.toList ++ p, log ++ log', hlog.append hlog', fun i mistakes => ?_⟩
      obtain ⟨k, hk⟩ : ∃ k, bound i = k + 1 := ⟨bound i - 1, by have hi := hbound i; omega⟩
      obtain rfl : bound i - 1 = k := by omega
      rw [hk, program_succ _ _ (List.cons_ne_nil _ _), bind_apply, hresult]
      simp only [Outcome.result, bind_apply, hresult']
      simp [Pure.pure, EStateM.pure]

end Rules.Read

theorem Rules.watching_bound (watch : Watch) (depth : Nat) :
    (Rules.watching watch depth).bound = depth := by
  cases depth <;> rfl

/-- Rules that are nested up to a depth come to the same on fewer tokens, whatever the
depth is and however they are watched. -/
theorem Rules.read_watching {ι : Type} (watch : ι → Watch) {total : Nat} :
    ∀ n ≤ total + 1, ∀ depth : ι → Nat, (∀ i, n ≤ depth i) →
      Rules.Read watch total n fun i => .watching (watch i) (depth i)
  | 0, _, _, _ => ⟨fun _ => Nat.zero_le _, .zero, .zero, fun _ _ h => absurd h (Nat.not_lt_zero _)⟩
  | n + 1, hn, depth, hdepth => by
    have hr := read_watching watch n (Nat.le_of_succ_le hn) (fun i => depth i - 1) fun i => by
      have hi := hdepth i
      omega
    have heq : depth = fun i => depth i - 1 + 1 := by
      funext i
      have hi := hdepth i
      omega
    rw [heq]
    have hn : n ≤ total := Nat.le_of_succ_le_succ hn
    exact ⟨fun i => Nat.succ_le_succ ((hr.bound i).trans_eq (watching_bound _ _)),
      hr.assignment hn, hr.statementBody hn, hr.declarationOrSkip hn⟩

end

/-- The tokens that a rule leaves, also when it gives up. -/
def leaves {α : Type} (x : Parser α) (s : ParseState) : List Token :=
  match x s with
  | .ok _ s' => s'.rest
  | .error _ s' => s'.rest

/-- What a rule leaves is the end of what it was given. -/
theorem ReadsAt.leaves {ι α : Type} {watch : ι → Watch} {total t : Nat} {ts : List Token}
    {x : ι → Parser α} (hx : ReadsAt watch total t ts x) (i : ι) (mistakes : List Mistake) :
    (x i).leaves ⟨ts, mistakes⟩ <:+ ts := by
  obtain ⟨o, ho, hresult⟩ := hx
  unfold Parser.leaves
  rw [hresult]
  cases o with
  | yields a rest log => exact ho.1
  | givesUp what rest log => exact ho.1

/-- The rules only go forward, and an attempt to read a declaration takes a token if
there is one. -/
theorem Rules.leaves_ofDepth {depth : Nat} {s : ParseState} (h : s.rest.length < depth) :
    (Rules.ofDepth depth).expression.leaves s <:+ s.rest ∧
      (Rules.ofDepth depth).statement.leaves s <:+ s.rest ∧
      (s.rest ≠ [] → ∃ o s', (Rules.ofDepth depth).declaration s = .ok o s' ∧
        s'.rest <:+ s.rest ∧ s'.rest.length < s.rest.length) := by
  obtain ⟨ts, mistakes⟩ := s
  have hr : Rules.Read (fun _ : Unit => fun _ => []) depth depth fun _ => .ofDepth depth := by
    have hr := Rules.read_watching (fun _ : Unit => fun _ => []) depth (Nat.le_succ depth)
      (fun _ => depth) fun _ => le_rfl
    simpa only [Rules.watching_nil] using hr
  refine ⟨(hr.expression ts h).leaves () mistakes, (hr.statement ts h).leaves () mistakes,
    fun hne => ?_⟩
  obtain ⟨o, rest, log, ⟨hrest, hlength, -⟩, hresult⟩ := hr.declaration ts hne h
  exact ⟨o, _, hresult () mistakes, hrest, hlength⟩

end Parser

namespace Parse

/-- There is one log for all runs over a list of tokens, however they are watched and
whatever room there is to nest. -/
theorem exists_log (tokens : List Token) : ∃ log, Parser.Falls tokens.length tokens.length log 0 ∧
    (ofTokens tokens).mistakes = log.flatMap Parser.Entry.mistakes ∧
      ∀ watch depth bound, tokens.length < depth → tokens.length ≤ bound →
        Parser.program (.watching watch depth) bound ⟨tokens, []⟩ =
          .ok (ofTokens tokens).program ⟨[], log.flatMap (Parser.Entry.reports watch)⟩ := by
  let ι := { run : Parser.Watch × Nat × Nat // tokens.length < run.2.1 ∧ tokens.length ≤ run.2.2 }
  have hr := Parser.Rules.read_watching (fun run : ι => run.1.1) (tokens.length + 1) le_rfl
    (fun run => run.1.2.1) fun run => run.2.1
  obtain ⟨p, log, hfalls, hrun⟩ := hr.program le_rfl
    (fun run => Nat.succ_le_succ run.2.2) tokens (Nat.lt_succ_self _)
  have hends (watch : Parser.Watch) (depth bound : Nat) (hdepth : tokens.length < depth)
      (hbound : tokens.length ≤ bound) :
      Parser.program (.watching watch depth) bound ⟨tokens, []⟩ =
        .ok p ⟨[], log.flatMap (Parser.Entry.reports watch)⟩ :=
    hrun ⟨(watch, depth, bound), hdepth, hbound⟩ []
  have hparse : ofTokens tokens = ⟨p, log.flatMap Parser.Entry.mistakes⟩ := by
    have hrun := hends (fun _ => []) (tokens.length + 1) tokens.length (Nat.lt_succ_self _) le_rfl
    rw [Parser.Rules.watching_nil, Parser.Entry.reports_nil] at hrun
    unfold ofTokens
    dsimp only
    rw [hrun]
  rw [hparse]
  exact ⟨log, hfalls, rfl, hends⟩

/-- A program is read alike by rules that are nested up to any depth above the number of
tokens. -/
theorem program_ofDepth {tokens : List Token} {depth bound : Nat} (hdepth : tokens.length < depth)
    (hbound : tokens.length ≤ bound) : Parser.program (.ofDepth depth) bound ⟨tokens, []⟩ =
      .ok (ofTokens tokens).program ⟨[], (ofTokens tokens).mistakes⟩ := by
  obtain ⟨log, -, hmistakes, hends⟩ := exists_log tokens
  have hrun := hends (fun _ => []) depth bound hdepth hbound
  rwa [Parser.Rules.watching_nil, Parser.Entry.reports_nil, ← hmistakes] at hrun

/-- What a log tells of the runs over a list of tokens, however they are watched and
whatever room there is to nest. -/
structure Recounts (tokens : List Token) (log : List Parser.Entry) : Prop where
  /-- Every run reaches the end of the tokens, with the same program and with the reports
  of the log. -/
  ends : ∀ watch depth bound, tokens.length < depth → tokens.length ≤ bound →
    Parser.program (.watching watch depth) bound ⟨tokens, []⟩ =
      .ok (ofTokens tokens).program ⟨[], log.flatMap (Parser.Entry.reports watch)⟩
  mistakes : (ofTokens tokens).mistakes = log.flatMap Parser.Entry.mistakes
  /-- What is blamed is one of the tokens or their end. -/
  blames : ∀ m ∈ (ofTokens tokens).mistakes, m.left ≤ tokens.length
  /-- Every attempt to read a declaration takes a token. -/
  takes : ∀ a ∈ log.flatMap Parser.Entry.attempts, a.after < a.before ∧ a.before ≤ tokens.length
  /-- The tokens at which rules give up come one behind the other, unless they have all
  been taken. -/
  order : (((ofTokens tokens).mistakes.filter fun m => m.error.endsAttempt).map
    Mistake.left).Pairwise fun a b => b < a ∨ a = 0 ∧ b = 0
  /-- An attempt that is dropped leaves the token behind at which its rules gave up. -/
  drops : ∀ what left before after, .dropped what left before after ∈ log →
    left ≤ before ∧ (after < left ∨ left = 0 ∧ after = 0)
  /-- A declaration is dropped for each time that a rule gives up, and for nothing else. -/
  count : (log.flatMap Parser.Entry.attempts).countP (fun a => a.result.isNone) =
    (ofTokens tokens).mistakes.countP fun m => m.error.endsAttempt
  keeps : (ofTokens tokens).mistakes = [] →
    ∀ a ∈ log.flatMap Parser.Entry.attempts, a.result ≠ none

/-- Reading ends, whatever the tokens are, and it only goes forward. -/
theorem goes_forward (tokens : List Token) :
    (∃ log, Recounts tokens log) ∧
      ∀ depth (s : ParseState), s.rest.length < depth →
        (Parser.Rules.ofDepth depth).expression.leaves s <:+ s.rest ∧
        (Parser.Rules.ofDepth depth).statement.leaves s <:+ s.rest ∧
        (s.rest ≠ [] → ∃ o s', (Parser.Rules.ofDepth depth).declaration s = .ok o s' ∧
          s'.rest <:+ s.rest ∧ s'.rest.length < s.rest.length) := by
  refine ⟨?_, fun depth s hs => Parser.Rules.leaves_ofDepth hs⟩
  obtain ⟨log, hfalls, hmistakes, hends⟩ := exists_log tokens
  refine ⟨log, hends, hmistakes, ?_, ?_, ?_, ?_, ?_, ?_⟩
  · rw [hmistakes]
    exact List.forall_mem_flatMap.mpr fun e he => (hfalls.sound e he).left_le
  · exact List.forall_mem_flatMap.mpr fun e he => (hfalls.sound e he).takes
  · rw [hmistakes]
    exact hfalls.filter_pairwise
  · intro what left before after he
    obtain ⟨-, -, hleft, hbehind⟩ := hfalls.sound _ he
    exact ⟨hleft, hbehind⟩
  · rw [hmistakes]
    exact hfalls.countP_attempts
  · intro hnone a ha hdropped
    have hcount := hfalls.countP_attempts
    rw [← hmistakes, hnone, List.countP_nil, List.countP_eq_zero] at hcount
    exact hcount a ha (by rw [hdropped]; rfl)

/-- A mistake in the body of a function drops one statement of it, and one in front of
the body drops the function. -/
example :
    let parse := ofTokens (Scan.ofSource
      "fun f(a) \x7b print ; var x = fun ( ; return a \x7d fun g( \x7b print 1; \x7d x = (").tokens
    parse.mistakes.map Mistake.left = [21, 15, 12, 8, 0] ∧ parse.program.length = 1 := by
  decide +kernel

end Parse

end ClassScript
