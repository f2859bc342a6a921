import ClassScript.Proofs.Syntax.Reading
import Mathlib.Data.List.Basic
import Mathlib.Order.Lattice

/-!
# Watching the rules at work

What a list of tokens is read as does not say which declarations were tried on the way
and which of them were dropped.  `Rules.watching` ties the rules together like
`Rules.ofDepth`, and after each *attempt* to read a declaration, at whatever depth, it
reports what it is told to.  If that is nothing, the rules are the same
(`Rules.watching_nil`).

`Reads watch total n t x` says of a family `x` of rules, which are watched in different
ways and may be nested up to different depths, that they do the same: on fewer than `n`
tokens they all yield or give up the same, leave the same end of the tokens, at least `t`
fewer of them if they yield, and their reports are those of one *log*.  An entry of the
log is an attempt or a mistake that does not end one, and the places of the entries go
down (`Falls`).

The rules for sequences (`Reads.bind`, `Reads.accept`) hand to the second step what the
first one leaves, so behind a token the bound `n` goes down.
-/

namespace ClassScript

/-- Whether the rule that reports such a mistake gives up. -/
def SyntaxError.endsAttempt : SyntaxError → Bool
  | .expected _ => true
  | _ => false

namespace Parser

/-! ## Attempts -/

/-- An attempt to read a declaration or statement. -/
structure Attempt where
  /-- The number of tokens before it. -/
  before : Nat
  /-- What is read, if it is not dropped. -/
  result : Option (Stmt Unit)
  /-- The number of tokens behind it. -/
  after : Nat

/-- What to report after an attempt. -/
abbrev Watch := Attempt → List Mistake

/-- An attempt with a report after it. -/
def watched (watch : Watch) (x : Parser (Option (Stmt Unit))) : Parser (Option (Stmt Unit)) :=
  fun s =>
    match x s with
    | .ok o s' =>
      .ok o { s' with mistakes := s'.mistakes ++ watch ⟨s.rest.length, o, s'.rest.length⟩ }
    | .error e s' => .error e s'

/-- The rules, nested in each other up to the given depth, with a report after each
attempt to read a declaration. -/
def Rules.watching (watch : Watch) : Nat → Rules
  | 0 => .ofDepth 0
  | depth + 1 =>
    { bound := depth + 1
      expression := Parser.assignment (watching watch depth)
      statement := Parser.statement (watching watch depth)
      declaration := watched watch (Parser.declaration (watching watch depth)) }

theorem watched_nil (x : Parser (Option (Stmt Unit))) : watched (fun _ => []) x = x := by
  funext s
  unfold watched
  cases x s <;> simp

theorem Rules.watching_nil (depth : Nat) : Rules.watching (fun _ => []) depth = .ofDepth depth := by
  induction depth with
  | zero => rfl
  | succ depth ih => simp only [watching, ofDepth, watched_nil, ih]

/-! ## Logs -/

/-- What a log tells. -/
inductive Entry where
  /-- A mistake behind which reading went on. -/
  | remark (mistake : Mistake)
  /-- An attempt that was kept. -/
  | kept (before : Nat) (stmt : Stmt Unit) (after : Nat)
  /-- An attempt that was dropped, as something was missing where that many tokens were
  left. -/
  | dropped (what : Expectation) (left before after : Nat)

namespace Entry

/-- The mistakes that are reported. -/
def mistakes : Entry → List Mistake
  | remark mistake => [mistake]
  | kept .. => []
  | dropped what left _ _ => [⟨left, .expected what⟩]

/-- The attempts. -/
def attempts : Entry → List Attempt
  | remark _ => []
  | kept before stmt after => [⟨before, some stmt, after⟩]
  | dropped _ _ before after => [⟨before, none, after⟩]

/-- The places where something was missing. -/
def missing : Entry → List Nat
  | dropped _ left _ _ => [left]
  | _ => []

/-- All that is reported while the attempts are watched. -/
def reports (watch : Watch) (e : Entry) : List Mistake :=
  e.mistakes ++ e.attempts.flatMap watch

/-- A remark blames one of the tokens and is about nothing that is missing.  An attempt
takes a token, and one that is dropped goes on behind the place where something was
missing, unless that is the end. -/
def Sound (total : Nat) : Entry → Prop
  | remark mistake => mistake.left ≤ total ∧ mistake.error.endsAttempt = false
  | kept before _ after => after < before ∧ before ≤ total
  | dropped _ left before after =>
      after < before ∧ before ≤ total ∧ left ≤ before ∧ (after < left ∨ left = 0 ∧ after = 0)

theorem reports_nil : reports (fun _ => []) = mistakes := by
  funext e
  simp [reports]

namespace Sound

variable {total : Nat} {e : Entry}

theorem left_le (h : e.Sound total) : ∀ m ∈ e.mistakes, m.left ≤ total := by
  cases e with
  | remark mistake => exact List.forall_mem_singleton.mpr h.1
  | kept before stmt after => exact nofun
  | dropped what left before after =>
    obtain ⟨-, hbefore, hleft, -⟩ := h
    exact List.forall_mem_singleton.mpr (hleft.trans hbefore)

theorem takes (h : e.Sound total) : ∀ a ∈ e.attempts, a.after < a.before ∧ a.before ≤ total := by
  cases e with
  | remark mistake => exact nofun
  | kept before stmt after => exact List.forall_mem_singleton.mpr h
  | dropped what left before after => exact List.forall_mem_singleton.mpr ⟨h.1, h.2.1⟩

/-- An attempt is dropped where a rule gives up. -/
theorem countP_attempts (h : e.Sound total) :
    e.attempts.countP (fun a => a.result.isNone) =
      e.mistakes.countP fun m => m.error.endsAttempt := by
  cases e with
  | remark mistake => simp [attempts, mistakes, h.2]
  | kept before stmt after => rfl
  | dropped what left before after => rfl

/-- The mistakes at which something was missing. -/
theorem filter_mistakes (h : e.Sound total) :
    (e.mistakes.filter fun m => m.error.endsAttempt).map Mistake.left = e.missing := by
  cases e with
  | remark mistake => simp [missing, mistakes, h.2]
  | kept before stmt after => rfl
  | dropped what left before after => rfl

end Sound

end Entry

/-- A log from a place where `p` tokens are left to one where `q` are left: no attempt
goes back behind the end of an earlier one. -/
inductive Falls (total : Nat) : Nat → List Entry → Nat → Prop where
  | done {p q : Nat} : q ≤ p → Falls total p [] q
  | remark {p q : Nat} {mistake : Mistake} {log : List Entry} :
      (Entry.remark mistake).Sound total → Falls total p log q →
        Falls total p (.remark mistake :: log) q
  | kept {p q before after : Nat} {stmt : Stmt Unit} {log : List Entry} :
      (Entry.kept before stmt after).Sound total → after ≤ p → Falls total after log q →
        Falls total p (.kept before stmt after :: log) q
  | dropped {p q left before after : Nat} {what : Expectation} {log : List Entry} :
      (Entry.dropped what left before after).Sound total → left ≤ p → Falls total after log q →
        Falls total p (.dropped what left before after :: log) q

namespace Falls

variable {total p q r : Nat} {log log' : List Entry}

theorem le_of_before (h : Falls total p log q) (hp : p ≤ r) : Falls total r log q := by
  induction h with
  | done hq => exact .done (hq.trans hp)
  | remark hs _ ih => exact .remark hs (ih hp)
  | kept hs hle h => exact .kept hs (hle.trans hp) h
  | dropped hs hle h => exact .dropped hs (hle.trans hp) h

theorem append (h : Falls total p log q) (h' : Falls total q log' r) :
    Falls total p (log ++ log') r := by
  induction h with
  | done hq => exact h'.le_of_before hq
  | remark hs _ ih => exact .remark hs (ih h')
  | kept hs hle _ ih => exact .kept hs hle (ih h')
  | dropped hs hle _ ih => exact .dropped hs hle (ih h')

theorem sound (h : Falls total p log q) : ∀ e ∈ log, e.Sound total := by
  induction h with
  | done => exact nofun
  | remark hs _ ih => exact List.forall_mem_cons.mpr ⟨hs, ih⟩
  | kept hs _ _ ih => exact List.forall_mem_cons.mpr ⟨hs, ih⟩
  | dropped hs _ _ ih => exact List.forall_mem_cons.mpr ⟨hs, ih⟩

theorem missing_le (h : Falls total p log q) : ∀ left ∈ log.flatMap Entry.missing, left ≤ p := by
  induction h with
  | done => exact nofun
  | remark _ _ ih => exact ih
  | kept _ hle _ ih => exact fun left hleft => (ih left hleft).trans hle
  | dropped hs hle _ ih =>
    intro left hleft
    rcases List.mem_cons.mp hleft with rfl | hleft
    · exact hle
    · have hafter := ih left hleft
      obtain ⟨-, -, -, hbehind⟩ := hs
      omega

/-- Something is missing at ever later tokens, unless the end is reached. -/
theorem missing_pairwise (h : Falls total p log q) :
    (log.flatMap Entry.missing).Pairwise fun a b => b < a ∨ a = 0 ∧ b = 0 := by
  induction h with
  | done => exact .nil
  | remark _ _ ih => exact ih
  | kept _ _ _ ih => exact ih
  | dropped hs _ h ih =>
    refine List.pairwise_cons.mpr ⟨fun left hleft => ?_, ih⟩
    have hafter := h.missing_le left hleft
    obtain ⟨-, -, -, hbehind⟩ := hs
    omega

/-- As many attempts are dropped as rules give up. -/
theorem countP_attempts (h : Falls total p log q) :
    (log.flatMap Entry.attempts).countP (fun a => a.result.isNone) =
      (log.flatMap Entry.mistakes).countP fun m => m.error.endsAttempt := by
  rw [List.countP_flatMap, List.countP_flatMap]
  congr 1
  exact List.map_congr_left fun e he => (h.sound e he).countP_attempts

/-- Rules give up at ever later tokens, unless the end is reached. -/
theorem filter_pairwise (h : Falls total p log q) :
    (((log.flatMap Entry.mistakes).filter fun m => m.error.endsAttempt).map
      Mistake.left).Pairwise fun a b => b < a ∨ a = 0 ∧ b = 0 := by
  have hmissing : ((log.flatMap Entry.mistakes).filter fun m => m.error.endsAttempt).map
      Mistake.left = log.flatMap Entry.missing := by
    rw [List.filter_flatMap, List.map_flatMap]
    exact List.flatMap_congr fun e he => (h.sound e he).filter_mistakes
  rw [hmissing]
  exact h.missing_pairwise

end Falls

/-! ## Outcomes -/

/-- What a rule comes to. -/
inductive Outcome (α : Type) where
  /-- It yields a value and leaves the given tokens. -/
  | yields (value : α) (rest : List Token) (log : List Entry)
  /-- It gives up at the given tokens. -/
  | givesUp (what : Expectation) (rest : List Token) (log : List Entry)

namespace Outcome

variable {α β : Type}

/-- The outcome as a result behind earlier mistakes. -/
def result (watch : Watch) (mistakes : List Mistake) :
    Outcome α → EStateM.Result Unit ParseState α
  | yields value rest log => .ok value ⟨rest, mistakes ++ log.flatMap (Entry.reports watch)⟩
  | givesUp what rest log =>
      .error () ⟨rest, mistakes ++ log.flatMap (Entry.reports watch) ++
        [⟨rest.length, .expected what⟩]⟩

/-- An outcome leaves an end of the tokens, with at least `t` fewer of them if something
is yielded. -/
def Fits (total t : Nat) (ts : List Token) : Outcome α → Prop
  | yields _ rest log =>
      rest <:+ ts ∧ rest.length + t ≤ ts.length ∧ Falls total ts.length log rest.length
  | givesUp _ rest log => rest <:+ ts ∧ Falls total ts.length log rest.length

/-- The outcome behind an earlier part of the log. -/
def behind (earlier : List Entry) : Outcome α → Outcome α
  | yields value rest log => yields value rest (earlier ++ log)
  | givesUp what rest log => givesUp what rest (earlier ++ log)

theorem result_behind (watch : Watch) (mistakes : List Mistake) (earlier : List Entry)
    (o : Outcome α) : (o.behind earlier).result watch mistakes =
      o.result watch (mistakes ++ earlier.flatMap (Entry.reports watch)) := by
  cases o <;> simp [behind, result]

theorem Fits.behind {total t u : Nat} {ts us : List Token} {earlier : List Entry}
    {o : Outcome α} (h : o.Fits total t us) (hus : us <:+ ts)
    (hearlier : Falls total ts.length earlier us.length)
    (hu : us.length + u ≤ ts.length + t) : (o.behind earlier).Fits total u ts := by
  cases o with
  | yields value rest log =>
    obtain ⟨hrest, hlength, hlog⟩ := h
    exact ⟨hrest.trans hus, by omega, hearlier.append hlog⟩
  | givesUp what rest log => exact ⟨h.1.trans hus, hearlier.append h.2⟩

theorem Fits.imp {total t u : Nat} {ts : List Token} {o : Outcome α} (h : o.Fits total t ts)
    (hu : u ≤ t) : o.Fits total u ts := by
  cases o with
  | yields value rest log => exact ⟨h.1, by have := h.2.1; omega, h.2.2⟩
  | givesUp what rest log => exact h

end Outcome

/-! ## Families of rules -/

section

variable {ι α β : Type} {watch : ι → Watch} {total n m t : Nat} {ts : List Token}

/-- On the given tokens all rules of a family come to the same, with at least `t` tokens
taken where something is yielded. -/
def ReadsAt (watch : ι → Watch) (total t : Nat) (ts : List Token) (x : ι → Parser α) : Prop :=
  ∃ o : Outcome α, o.Fits total t ts ∧
    ∀ i mistakes, x i ⟨ts, mistakes⟩ = o.result (watch i) mistakes

/-- On any fewer than `n` tokens all rules of a family come to the same. -/
def Reads (watch : ι → Watch) (total n t : Nat) (x : ι → Parser α) : Prop :=
  ∀ ts : List Token, ts.length < n → ReadsAt watch total t ts x

/-- A rule that does there what another one does on an end of the tokens. -/
theorem ReadsAt.of_behind {x y : ι → Parser α} {u : Nat} {us : List Token} {earlier : List Entry}
    (hy : ReadsAt watch total t us y) (hus : us <:+ ts)
    (hearlier : Falls total ts.length earlier us.length) (hu : us.length + u ≤ ts.length + t)
    (h : ∀ i mistakes, x i ⟨ts, mistakes⟩ =
      y i ⟨us, mistakes ++ earlier.flatMap (Entry.reports (watch i))⟩) :
    ReadsAt watch total u ts x := by
  obtain ⟨o, ho, hresult⟩ := hy
  refine ⟨o.behind earlier, ho.behind hus hearlier hu, fun i mistakes => ?_⟩
  rw [h, hresult, Outcome.result_behind]

theorem ReadsAt.congr {x y : ι → Parser α} (hy : ReadsAt watch total t ts y)
    (h : ∀ i mistakes, x i ⟨ts, mistakes⟩ = y i ⟨ts, mistakes⟩) :
    ReadsAt watch total t ts x := by
  obtain ⟨o, ho, hresult⟩ := hy
  exact ⟨o, ho, fun i mistakes => (h i mistakes).trans (hresult i mistakes)⟩

/-- Rules that all yield the same without taking or reporting anything. -/
theorem ReadsAt.of_pure {x : ι → Parser α} (a : α)
    (h : ∀ i mistakes, x i ⟨ts, mistakes⟩ = .ok a ⟨ts, mistakes⟩) :
    ReadsAt watch total 0 ts x := by
  refine ⟨.yields a ts [], ⟨List.suffix_refl ts, le_rfl, .done le_rfl⟩, fun i mistakes => ?_⟩
  simp [Outcome.result, h]

/-- Two rules in sequence, of which the first takes at least `t` tokens. -/
theorem ReadsAt.bind {x : ι → Parser α} {f : ι → α → Parser β} {u v : Nat}
    (hx : ReadsAt watch total t ts x)
    (hf : ∀ a (us : List Token), us.length + t ≤ ts.length →
      ReadsAt watch total u us fun i => f i a)
    (hv : v ≤ t + u) : ReadsAt watch total v ts fun i => x i >>= f i := by
  obtain ⟨o, ho, hresult⟩ := hx
  cases o with
  | givesUp what rest log =>
    refine ⟨.givesUp what rest log, ho, fun i mistakes => ?_⟩
    simp only [bind_apply, hresult]
    rfl
  | yields a rest log =>
    obtain ⟨hrest, hlength, hlog⟩ := ho
    refine (hf a rest hlength).of_behind hrest hlog (by omega) fun i mistakes => ?_
    simp only [bind_apply, hresult]
    rfl

namespace Reads

variable {x : ι → Parser α} {f : ι → α → Parser β}

/-! ### Rules in sequence -/

theorem mono (hx : Reads watch total n t x) (hm : m ≤ n) : Reads watch total m t x :=
  fun ts hts => hx ts (hts.trans_le hm)

theorem zero : Reads watch total 0 t x := fun _ hts => absurd hts (Nat.not_lt_zero _)

theorem imp {u : Nat} (hx : Reads watch total n t x) (hu : u ≤ t) : Reads watch total n u x := by
  intro ts hts
  obtain ⟨o, ho, hresult⟩ := hx ts hts
  exact ⟨o, ho.imp hu, hresult⟩

theorem pure (a : α) : Reads watch total n 0 fun _ => (Pure.pure a : Parser α) :=
  fun _ _ => .of_pure a fun _ _ => rfl

theorem giveUp (what : Expectation) : Reads watch total n t fun _ => (giveUp what : Parser α) := by
  refine fun ts _ => ⟨.givesUp what ts [], ⟨List.suffix_refl ts, .done le_rfl⟩, ?_⟩
  intro i mistakes
  simp only [Outcome.result, List.flatMap_nil, List.append_nil]
  rfl

/-- Two steps, of which the first takes at least `t` tokens. -/
theorem bind_of_le {u v : Nat} (hx : Reads watch total n t x)
    (hf : ∀ a, Reads watch total m u fun i => f i a) (hm : n ≤ m + t) (hv : v ≤ t + u) :
    Reads watch total n v fun i => x i >>= f i :=
  fun ts hts => (hx ts hts).bind (fun a us hus => hf a us (by omega)) hv

theorem bind (hx : Reads watch total n 0 x) (hf : ∀ a, Reads watch total n t fun i => f i a) :
    Reads watch total n t fun i => x i >>= f i :=
  hx.bind_of_le hf (Nat.le_add_right _ _) (Nat.le_add_left _ _)

/-- A first step that takes at least a token. -/
theorem bindTaking (hx : Reads watch total n 1 x)
    (hf : ∀ a, Reads watch total (n - 1) (t - 1) fun i => f i a) :
    Reads watch total n t fun i => x i >>= f i :=
  hx.bind_of_le hf (by omega) (by omega)

/-- A last step that only shapes the value. -/
theorem last {g : α → β} (hx : Reads watch total n t x) :
    Reads watch total n t fun i => x i >>= fun a => Pure.pure (g a) :=
  hx.bind_of_le (fun a => pure (g a)) (Nat.le_add_right _ _) le_rfl

theorem map {g : α → β} (hx : Reads watch total n t x) : Reads watch total n t fun i => g <$> x i :=
  hx.last

/-! ### Looking ahead -/

/-- A choice by the next token. -/
theorem peek {g : ι → Option TokenKind → Parser β}
    (hg : ∀ k, Reads watch total n t fun i => g i k) :
    Reads watch total n t fun i => Parser.peek >>= g i :=
  fun ts hts => hg (ts.head?.map Token.kind) ts hts

/-- A choice by the next token, if there is one. -/
theorem peekSome {g : ι → Option TokenKind → Parser β}
    (hnone : Reads watch total n t fun i => g i none)
    (hsome : ∀ kind ts, ts ≠ [] → ts.length < n →
      ReadsAt watch total t ts fun i => g i (some kind)) :
    Reads watch total n t fun i => Parser.peek >>= g i := by
  intro ts hts
  cases ts with
  | nil => exact hnone [] hts
  | cons tok us => exact hsome tok.kind (tok :: us) nofun hts

theorem nextIs {kind : TokenKind} {g : ι → Bool → Parser β}
    (hg : ∀ c, Reads watch total n t fun i => g i c) :
    Reads watch total n t fun i => Parser.nextIs kind >>= g i :=
  fun ts hts => hg (decide (ts.head?.map Token.kind = some kind)) ts hts

/-- A step that looks at the tokens that are left. -/
theorem get {g : ι → ParseState → Parser β}
    (hrest : ∀ i s s', s.rest = s'.rest → g i s = g i s')
    (hg : ∀ s : ParseState, s.rest.length < n → Reads watch total n t fun i => g i s) :
    Reads watch total n t fun i => MonadState.get >>= g i := by
  intro ts hts
  refine (hg ⟨ts, []⟩ hts ts hts).congr fun i mistakes => ?_
  show g i ⟨ts, mistakes⟩ _ = _
  rw [hrest i ⟨ts, mistakes⟩ ⟨ts, []⟩ rfl]

/-- A token that is taken if `select` has a value for it. -/
theorem take? {select : Token → Option α} {g : ι → Option α → Parser β}
    (hnone : Reads watch total n t fun i => g i none)
    (hsome : ∀ a, Reads watch total (n - 1) (t - 1) fun i => g i (some a)) :
    Reads watch total n t fun i => Parser.take? select >>= g i := by
  intro ts hts
  cases ts with
  | nil => exact hnone [] hts
  | cons tok us =>
    cases ha : select tok with
    | none =>
      refine (hnone _ hts).of_behind (List.suffix_refl _) (.done le_rfl) le_rfl fun i mistakes => ?_
      simp [bind_apply, Parser.take?, ha]
    | some a =>
      rw [List.length_cons] at hts
      refine (hsome a us (by omega)).of_behind (List.suffix_cons tok us)
        (.done (by simp)) (by simp only [List.length_cons]; omega) fun i mistakes => ?_
      simp [bind_apply, Parser.take?, ha]

theorem accept {kind : TokenKind} {g : ι → Option Token → Parser β}
    (hnone : Reads watch total n t fun i => g i none)
    (hsome : ∀ tok, Reads watch total (n - 1) (t - 1) fun i => g i (some tok)) :
    Reads watch total n t fun i => Parser.accept kind >>= g i :=
  take? hnone hsome

/-- A token that must have the given kind. -/
theorem expect {kind : TokenKind} {what : Expectation} {g : ι → Token → Parser β}
    (hg : ∀ tok, Reads watch total (n - 1) (t - 1) fun i => g i tok) :
    Reads watch total n t fun i => Parser.expect kind what >>= g i :=
  have htoken : Reads watch total n 1 fun _ => Parser.expect kind what :=
    accept (giveUp what) fun tok => pure tok
  htoken.bindTaking hg

theorem name (what : Expectation) : Reads watch total n 1 fun _ => Parser.expectName what :=
  expect fun _ => pure _

theorem expectName {what : Expectation} {g : ι → Name → Parser β}
    (hg : ∀ name, Reads watch total (n - 1) (t - 1) fun i => g i name) :
    Reads watch total n t fun i => Parser.expectName what >>= g i :=
  (name what).bindTaking hg

/-- A choice by the next token, which is taken in some of the cases. -/
theorem peekTaking {g : ι → Option TokenKind → Parser β}
    (hg : ∀ k, (Reads watch total n t fun i => g i k) ∨
      ∃ (kind : TokenKind) (y : ι → Parser β), k = some kind ∧
        (∀ i, g i k = (Parser.accept kind >>= fun _ => y i)) ∧
        Reads watch total (n - 1) (t - 1) y) :
    Reads watch total n t fun i => Parser.peek >>= g i := by
  intro ts hts
  rcases hg (ts.head?.map Token.kind) with h | ⟨kind, y, hk, hy, h⟩
  · exact h ts hts
  · cases ts with
    | nil => cases hk
    | cons tok us =>
      obtain rfl : tok.kind = kind := Option.some.inj hk
      rw [List.length_cons] at hts
      refine (h us (by omega)).of_behind (List.suffix_cons tok us) (.done (by simp))
        (by simp only [List.length_cons]; omega) fun i mistakes => ?_
      show g i (some tok.kind) _ = _
      rw [show g i (some tok.kind) = _ from hy i]
      simp [bind_apply, Parser.accept, Parser.take?]

/-! ### Remarks -/

theorem reportAt {left : Nat} {error : SyntaxError} (hleft : left ≤ total)
    (herror : error.endsAttempt = false) :
    Reads watch total n 0 fun _ => Parser.reportAt left error := by
  refine fun ts _ => ⟨.yields () ts [.remark ⟨left, error⟩], ?_, fun i mistakes => rfl⟩
  exact ⟨List.suffix_refl ts, le_rfl, .remark ⟨hleft, herror⟩ (.done le_rfl)⟩

theorem report {error : SyntaxError} (hn : n ≤ total + 1) (herror : error.endsAttempt = false) :
    Reads watch total n 0 fun _ => Parser.report error := by
  intro ts hts
  have hreport : Reads watch total n 0 fun _ => Parser.reportAt ts.length error :=
    reportAt (by omega) herror
  exact hreport ts hts

/-- A step before which a mistake may be reported. -/
theorem reportIf {c : Prop} [Decidable c] {error : SyntaxError} (hn : n ≤ total + 1)
    (herror : error.endsAttempt = false) (hx : Reads watch total n t x) :
    Reads watch total n t fun i => if c then Parser.report error >>= fun _ => x i else x i := by
  split
  · exact (report hn herror).bind fun _ => hx
  · exact hx

/-! ### Rounds -/

/-- Rules with a bound on the number of their rounds, which each take a token. -/
theorem rounds {y : ι → Nat → Parser α} {bound : ι → Nat} (hbound : ∀ i, n ≤ bound i + 1)
    (hnil : ReadsAt watch total t [] fun i => y i (bound i))
    (hsucc : ∀ rest : ι → Nat, (∀ i, n - 1 ≤ rest i + 1) →
      Reads watch total n t fun i => y i (rest i + 1)) :
    Reads watch total n t fun i => y i (bound i) := by
  intro ts hts
  cases ts with
  | nil => exact hnil
  | cons tok us =>
    have hlength := hts
    rw [List.length_cons] at hlength
    have hrest : bound = fun i => bound i - 1 + 1 := by
      funext i
      have hi := hbound i
      omega
    rw [hrest]
    refine hsucc (fun i => bound i - 1) (fun i => ?_) (tok :: us) hts
    have hi := hbound i
    omega

end Reads

end

end Parser

end ClassScript
