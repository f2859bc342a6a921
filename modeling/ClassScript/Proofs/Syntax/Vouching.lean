import ClassScript.Proofs.Syntax.Chain
import ClassScript.Proofs.Syntax.Reading

/-!
# Rules that vouch for what they take

A rule may report a mistake and go on, and a declaration that is given up is dropped
with tokens behind it.  So only of a run without a report can something be said about
the tokens that it took.  `Vouches n x Φ` says that the rule `x` takes back no report,
and that a run on fewer than `n` tokens without a report yields a value `a` and takes
tokens `ts` in front of tokens `r` with `Φ ts a r`.

The rules for sequences (`Vouches.bind`, `Vouches.take?`) are read from their end: what
the first step vouches for may be assumed of the second.
-/

namespace ClassScript

namespace Parser

variable {α β : Type}

/-- The number of mistakes behind a rule, also when it gives up. -/
def reported (x : Parser α) (s : ParseState) : Nat :=
  match x s with
  | .ok _ s' => s'.mistakes.length
  | .error _ s' => s'.mistakes.length

/-- What a rule takes, yields and leaves, in a run on fewer than `n` tokens that makes
no report.  There is always such a result, and no report is ever taken back. -/
structure Vouches (n : Nat) (x : Parser α) (Φ : List Token → α → List Token → Prop) : Prop where
  keeps : ∀ s, s.mistakes.length ≤ reported x s
  reads : ∀ s, s.rest.length < n → reported x s = s.mistakes.length →
    ∃ a s' ts, x s = .ok a s' ∧ s.rest = ts ++ s'.rest ∧ Φ ts a s'.rest

namespace Vouches

variable {n m : Nat} {x : Parser α} {f : α → Parser β}
  {Φ : List Token → α → List Token → Prop} {Ψ : List Token → β → List Token → Prop}

/-! ## Rules in sequence -/

theorem mono (hx : Vouches n x Φ) (hm : m ≤ n) : Vouches m x Φ :=
  ⟨hx.keeps, fun s hs => hx.reads s (hs.trans_le hm)⟩

theorem imp {Φ' : List Token → α → List Token → Prop} (hx : Vouches n x Φ)
    (h : ∀ ts a r, Φ ts a r → Φ' ts a r) : Vouches n x Φ' := by
  refine ⟨hx.keeps, fun s hs hr => ?_⟩
  obtain ⟨a, s', ts, hok, hts, hΦ⟩ := hx.reads s hs hr
  exact ⟨a, s', ts, hok, hts, h _ _ _ hΦ⟩

theorem pure {a : α} (h : ∀ r, r.length < n → Φ [] a r) : Vouches n (Pure.pure a) Φ :=
  ⟨fun _ => le_rfl, fun s hs _ => ⟨a, s, [], rfl, rfl, h _ hs⟩⟩

/-- In a run without a report, the first step makes none and the second goes on from
there. -/
theorem reported_bind (hf : ∀ a s, s.mistakes.length ≤ reported (f a) s) (s : ParseState) :
    reported x s ≤ reported (x >>= f) s ∧
      ∀ a s', x s = .ok a s' → reported (x >>= f) s = reported (f a) s' := by
  have hbind := bind_apply x f s
  cases hr : x s with
  | ok a s' =>
    rw [hr] at hbind
    have heq : reported (x >>= f) s = reported (f a) s' := by
      unfold reported
      rw [hbind]
    refine ⟨?_, ?_⟩
    · rw [heq]
      refine le_trans (le_of_eq ?_) (hf a s')
      unfold reported
      rw [hr]
    · rintro _ _ ⟨⟩
      exact heq
  | error e s' =>
    rw [hr] at hbind
    refine ⟨le_of_eq ?_, nofun⟩
    unfold reported
    rw [hbind, hr]

/-- Two steps, of which the first lowers the bound by what it takes. -/
theorem bind_of_length (hx : Vouches n x Φ)
    (hf : ∀ a us, Vouches m (f a) fun vs b r => Φ us a (vs ++ r) → Ψ (us ++ vs) b r)
    (hm : ∀ us a r, Φ us a r → n ≤ m + us.length) : Vouches n (x >>= f) Ψ := by
  have hkeeps : ∀ a s, s.mistakes.length ≤ reported (f a) s := fun a => (hf a []).keeps
  refine ⟨fun s => (hx.keeps s).trans (reported_bind hkeeps s).1, fun s hs hr => ?_⟩
  obtain ⟨hle, hsecond⟩ := reported_bind hkeeps s
  have hquiet : reported x s = s.mistakes.length :=
    le_antisymm (hr ▸ hle) (hx.keeps s)
  obtain ⟨a, s', us, hok, hus, hΦ⟩ := hx.reads s hs hquiet
  have hmistakes : s'.mistakes.length = s.mistakes.length := by
    rw [← hquiet]
    unfold reported
    rw [hok]
  have hlength : s'.rest.length < m := by
    have hle := hm us a _ hΦ
    rw [hus, List.length_append] at hs
    omega
  obtain ⟨b, s'', vs, hok', hvs, hΨ⟩ := (hf a us).reads s' hlength
    (by rw [← hsecond a s' hok, hr, hmistakes])
  refine ⟨b, s'', us ++ vs, ?_, by rw [hus, hvs, List.append_assoc], hΨ (hvs ▸ hΦ)⟩
  rw [bind_apply, hok]
  exact hok'

theorem bind (hx : Vouches n x Φ)
    (hf : ∀ a us, Vouches n (f a) fun vs b r => Φ us a (vs ++ r) → Ψ (us ++ vs) b r) :
    Vouches n (x >>= f) Ψ :=
  hx.bind_of_length hf fun _ _ _ _ => Nat.le_add_right _ _

/-- A first step that takes at least a token. -/
theorem bind_lt (hx : Vouches n x Φ) (hne : ∀ us a r, Φ us a r → us ≠ [])
    (hf : ∀ a us, Vouches (n - 1) (f a) fun vs b r => Φ us a (vs ++ r) → Ψ (us ++ vs) b r) :
    Vouches n (x >>= f) Ψ := by
  refine hx.bind_of_length hf fun us a r h => ?_
  have hpos := List.length_pos_iff.mpr (hne us a r h)
  omega

/-- A last step that only shapes the value. -/
theorem last {g : α → β} (hx : Vouches n x fun ts a r => Ψ ts (g a) r) :
    Vouches n (x >>= fun a => Pure.pure (g a)) Ψ :=
  hx.bind fun a us => .pure fun r _ h => by simpa using h

theorem map {g : α → β} (hx : Vouches n x fun ts a r => Ψ ts (g a) r) : Vouches n (g <$> x) Ψ :=
  hx.last

/-! ## Reports -/

theorem reportAt (left : Nat) (error : SyntaxError) :
    Vouches n (reportAt left error) fun _ _ _ => False := by
  have hlength (s : ParseState) :
      reported (Parser.reportAt left error) s = s.mistakes.length + 1 := List.length_append
  refine ⟨fun s => ?_, fun s _ hr => ?_⟩
  · rw [hlength]
    exact Nat.le_succ _
  · rw [hlength] at hr
    exact absurd hr (Nat.succ_ne_self _)

theorem report (error : SyntaxError) : Vouches n (report error) fun _ _ _ => False := by
  refine ⟨fun s => (reportAt (n := n) s.rest.length error).keeps s, fun s hs hr => ?_⟩
  exact (reportAt (n := n) s.rest.length error).reads s hs hr

theorem giveUp (what : Expectation) : Vouches n (giveUp what) Φ := by
  have hthrow : Vouches 0 (throw () : Parser α) fun _ _ _ => False :=
    ⟨fun _ => le_rfl, fun _ hs => absurd hs (Nat.not_lt_zero _)⟩
  exact (report (n := n) _).bind_of_length (fun _ _ => hthrow.imp fun _ _ _ h _ => h.elim)
    fun _ _ _ h => h.elim

/-! ## Looking ahead -/

/-- A rule that does in each state what another one does there or behind the first
token. -/
theorem of_state (h : ∀ s : ParseState,
    (∃ y : Parser α, x s = y s ∧ Vouches n y fun ts a r => s.rest = ts ++ r → Φ ts a r) ∨
    ∃ (t : Token) (rest : List Token) (y : Parser α), s.rest = t :: rest ∧
      x s = y ⟨rest, s.mistakes⟩ ∧
      Vouches (n - 1) y fun ts a r => rest = ts ++ r → Φ (t :: ts) a r) : Vouches n x Φ := by
  refine ⟨fun s => ?_, fun s hs hr => ?_⟩
  · unfold reported
    rcases h s with ⟨y, heq, hy⟩ | ⟨t, rest, y, -, heq, hy⟩
    · rw [heq]
      exact hy.keeps s
    · rw [heq]
      exact hy.keeps ⟨rest, s.mistakes⟩
  · unfold reported at hr
    rcases h s with ⟨y, heq, hy⟩ | ⟨t, rest, y, hrest, heq, hy⟩
    · rw [heq] at hr
      obtain ⟨a, s', ts, hok, hts, hΦ⟩ := hy.reads s hs hr
      exact ⟨a, s', ts, heq.trans hok, hts, hΦ hts⟩
    · rw [heq] at hr
      rw [hrest, List.length_cons] at hs
      obtain ⟨a, s', ts, hok, hts, hΦ⟩ :=
        hy.reads ⟨rest, s.mistakes⟩ (Nat.lt_sub_of_add_lt hs) hr
      exact ⟨a, s', t :: ts, heq.trans hok, by rw [hrest, List.cons_append, ← hts], hΦ hts⟩

/-- A step that looks at the state and leaves it alone. -/
theorem get {g : ParseState → Parser β} (hg : ∀ s, Vouches n (g s) Ψ) :
    Vouches n (MonadState.get >>= g) Ψ :=
  of_state fun s => .inl ⟨g s, rfl, (hg s).imp fun _ _ _ h _ => h⟩

theorem peek {g : Option TokenKind → Parser β} (hg : ∀ k, Vouches n (g k) fun ts b r =>
    (ts ++ r).head?.map Token.kind = k → Ψ ts b r) : Vouches n (Parser.peek >>= g) Ψ :=
  of_state fun s => .inl ⟨g _, rfl, (hg _).imp fun ts b r h hs => h (by rw [hs])⟩

theorem nextIs {kind : TokenKind} {g : Bool → Parser β} (hg : ∀ c, Vouches n (g c) fun ts b r =>
    (c = true ↔ (ts ++ r).head?.map Token.kind = some kind) → Ψ ts b r) :
    Vouches n (Parser.nextIs kind >>= g) Ψ :=
  of_state fun s => .inl ⟨g (decide (s.rest.head?.map Token.kind = some kind)), rfl,
    (hg _).imp fun ts b r h hs => h (by rw [hs, decide_eq_true_iff])⟩

/-- A token that is taken if `select` has a value for it. -/
theorem take? {select : Token → Option α} {g : Option α → Parser β}
    (hnone : Vouches n (g none) fun ts b r =>
      (∀ t us, ts ++ r = t :: us → select t = none) → Ψ ts b r)
    (hsome : ∀ t a, select t = some a →
      Vouches (n - 1) (g (some a)) fun ts b r => Ψ (t :: ts) b r) :
    Vouches n (Parser.take? select >>= g) Ψ := by
  refine of_state fun s => ?_
  obtain ⟨rest, mistakes⟩ := s
  cases rest with
  | nil =>
    refine .inl ⟨g none, rfl, hnone.imp fun ts b r h hs => h fun t us ht => ?_⟩
    rw [← hs] at ht
    cases ht
  | cons t rest =>
    cases ht : select t with
    | none =>
      refine .inl ⟨g none, ?_, hnone.imp fun ts b r h hs => h fun t' us ht' => ?_⟩
      · simp [bind_apply, Parser.take?, ht]
      · rw [← hs] at ht'
        cases ht'
        exact ht
    | some a =>
      refine .inr ⟨t, rest, g (some a), rfl, ?_, (hsome t a ht).imp fun ts b r h _ => h⟩
      simp [bind_apply, Parser.take?, ht]

theorem accept {kind : TokenKind} {g : Option Token → Parser β}
    (hnone : Vouches n (g none) fun ts b r =>
      (∀ t us, ts ++ r = t :: us → t.kind ≠ kind) → Ψ ts b r)
    (hsome : ∀ t, t.kind = kind → Vouches (n - 1) (g (some t)) fun ts b r => Ψ (t :: ts) b r) :
    Vouches n (Parser.accept kind >>= g) Ψ := by
  refine take? (hnone.imp fun ts b r h hselect => h fun t us ht hk => ?_) fun t a ht => ?_
  · have hnone := hselect t us ht
    rw [if_pos hk] at hnone
    cases hnone
  · split at ht
    · cases ht
      exact hsome t ‹_›
    · cases ht

/-- A choice by the next token, which is taken in some of the cases. -/
theorem peekTaking {g : Option TokenKind → Parser β}
    (hg : ∀ k, (Vouches n (g k) fun ts b r => (ts ++ r).head?.map Token.kind = k → Ψ ts b r) ∨
      ∃ kind y, k = some kind ∧ g k = (Parser.accept kind >>= fun _ => y) ∧
        Vouches (n - 1) y fun ts b r => ∀ t : Token, t.kind = kind → Ψ (t :: ts) b r) :
    Vouches n (Parser.peek >>= g) Ψ := by
  refine of_state fun s => ?_
  rcases hg (s.rest.head?.map Token.kind) with h | ⟨kind, y, hk, hy, h⟩
  · exact .inl ⟨g (s.rest.head?.map Token.kind), rfl, h.imp fun ts b r h hs => h (by rw [hs])⟩
  · obtain ⟨rest, mistakes⟩ := s
    cases rest with
    | nil => cases hk
    | cons t rest =>
      obtain rfl : t.kind = kind := Option.some.inj hk
      refine .inr ⟨t, rest, y, rfl, ?_, h.imp fun ts b r h _ => h t rfl⟩
      show g (some t.kind) _ = _
      rw [hk] at hy
      rw [hy]
      simp [bind_apply, Parser.accept, Parser.take?]

/-- A token that must have the given kind. -/
theorem expect {kind : TokenKind} {what : Expectation} {g : Token → Parser β}
    (hg : ∀ t, Vouches (n - 1) (g t) fun ts b r => t.kind = kind → Ψ (t :: ts) b r) :
    Vouches n (Parser.expect kind what >>= g) Ψ := by
  have htoken : Vouches n (Parser.expect kind what) fun ts t _ => t.kind = kind ∧ ts = [t] :=
    accept (giveUp what) fun t ht => .pure fun _ _ => ⟨ht, rfl⟩
  refine htoken.bind_lt (fun us t _ h => by rw [h.2]; simp) fun t us => (hg t).imp ?_
  rintro ts b r h ⟨hk, rfl⟩
  exact h hk

theorem name (what : Expectation) :
    Vouches n (Parser.expectName what) fun ts name _ => Token.Names ts name :=
  expect fun t => .pure fun _ _ ht => ⟨t, ht, rfl, rfl⟩

theorem expectName {what : Expectation} {g : Name → Parser β}
    (hg : ∀ name, Vouches (n - 1) (g name) fun ts b r =>
      ∀ t : Token, t.kind = .identifier → name = t.name → Ψ (t :: ts) b r) :
    Vouches n (Parser.expectName what >>= g) Ψ := by
  refine (name what).bind_lt ?_ fun name us => (hg name).imp ?_
  · rintro us _ _ ⟨t, -, rfl, -⟩
    simp
  · rintro ts b r h ⟨t, ht, rfl, he⟩
    exact h t ht he

/-! ## Lists -/

/-- A step before which a mistake may be reported. -/
theorem reportIf {c : Prop} [Decidable c] (error : SyntaxError)
    (hx : Vouches n x fun ts a r => ¬ c → Φ ts a r) :
    Vouches n (if c then Parser.report error >>= fun _ => x else x) Φ := by
  split
  · exact (report error).bind fun _ _ => hx.imp fun _ _ _ _ h => h.elim
  · exact hx.imp fun _ _ _ h => h ‹_›

theorem separated {Item : List Token → α → Prop} {tooMany : SyntaxError} {item : Parser α}
    (hitem : Vouches n item fun ts a _ => Item ts a) :
    ∀ {bound m : Nat} (count : Nat), m ≤ bound → m ≤ n →
      Vouches m (separated tooMany item bound count) fun ts as _ =>
        Separated Item ts as ∧ as ≠ [] ∧ count + as.length ≤ maxArguments := by
  intro bound
  induction bound with
  | zero => exact fun _ hm _ => .pure fun _ hr => absurd (hr.trans_le hm) (Nat.not_lt_zero _)
  | succ bound ih =>
    intro m count hm hn
    unfold Parser.separated
    refine .reportIf tooMany ?_
    refine (hitem.mono hn).bind fun first us => accept (.pure ?_) fun comma hcomma => ?_
    · intro r _ _ hfirst hcount
      exact ⟨by simpa using .single hfirst, by simp, Nat.lt_of_not_le hcount⟩
    · refine .last ((ih (count + 1) (Nat.sub_le_of_le_add hm) (by omega)).imp ?_)
      rintro ts as r ⟨has, hne, hlength⟩ hfirst _
      obtain ⟨b, bs, rfl⟩ := List.exists_cons_of_ne_nil hne
      refine ⟨.cons hfirst hcomma has, by simp, ?_⟩
      simp only [List.length_cons] at hlength ⊢
      omega

theorem parenthesized {Item : List Token → α → Prop} {tooMany : SyntaxError}
    {ending : Expectation} {item : Parser α} (hitem : Vouches n item fun ts a _ => Item ts a)
    {bound : Nat} (hbound : n ≤ bound) :
    Vouches n (parenthesized tooMany ending item bound) fun ts p _ =>
      ∃ us closing, ts = us ++ [closing] ∧ closing.kind = .rightParen ∧ p.2 = closing.line ∧
        Separated Item us p.1 ∧ p.1.length ≤ maxArguments := by
  have hclose (items : List α) : Vouches n
      (Parser.expect .rightParen ending >>= fun paren => Pure.pure (items, paren.line))
      fun ts p _ => p.1 = items ∧
        ∃ closing, ts = [closing] ∧ closing.kind = .rightParen ∧ p.2 = closing.line :=
    expect fun paren => .pure fun _ _ hc => ⟨rfl, paren, rfl, hc, rfl⟩
  refine nextIs fun c => ?_
  split
  · have hnil : Vouches n (Pure.pure [] : Parser (List α)) fun ts items _ => ts = [] ∧ items = [] :=
      .pure fun _ _ => ⟨rfl, rfl⟩
    refine hnil.bind fun items us => (hclose items).imp ?_
    rintro ts p r ⟨hitems, closing, rfl, hc, hline⟩ ⟨rfl, rfl⟩ -
    exact ⟨[], closing, rfl, hc, hline, by rw [hitems]; exact .nil, by rw [hitems]; simp⟩
  · refine (separated hitem 0 hbound le_rfl).bind fun items us => (hclose items).imp ?_
    rintro ts p r ⟨hitems, closing, rfl, hc, hline⟩ ⟨hus, -, hlength⟩ -
    exact ⟨us, closing, rfl, hc, hline, by rwa [hitems], by rw [hitems]; omega⟩

theorem parameters {bound : Nat} (hbound : n ≤ bound) :
    Vouches n (parameters bound) fun ts names _ =>
      ∃ us closing, ts = us ++ [closing] ∧ closing.kind = .rightParen ∧
        Separated Token.Names us names ∧ names.length ≤ maxArguments := by
  refine .last ((parenthesized (name _) hbound).imp ?_)
  rintro ts ⟨names, line⟩ r ⟨us, closing, rfl, hc, -, hnames, hlength⟩
  exact ⟨us, closing, rfl, hc, hnames, hlength⟩

end Vouches

end Parser

end ClassScript
