import ClassScript.Proofs.Syntax.Completeness
import ClassScript.Proofs.Syntax.Watching

/-!
# Rules in front of a semicolon

A semicolon that is not inside braces or the clauses of a `for` ends a statement, and no
rule for a single statement needs to look behind it.  So what such a rule does on *bare*
tokens in front of a semicolon is the same whatever comes behind (`HaltsAt`): it
yields and leaves the semicolon where it is, or it yields and takes the semicolon as its
last token, or it gives up without taking the semicolon.  The places that it blames are
counted from the semicolon.

An expression never takes the semicolon, and a statement that does not give up does
(`Parser.Halts`).  A function or class gives up at the brace that it does not find.
-/

namespace ClassScript

/-- The mistake in front of that many further tokens. -/
def Mistake.shift (further : Nat) (m : Mistake) : Mistake := { m with left := m.left + further }

theorem Mistake.map_shift_zero (log : List Mistake) : log.map (shift 0) = log :=
  List.map_id log

/-- A mistake at one of the tokens is reported in the same words wherever the tokens are. -/
theorem Mistake.diagnostic_shift {before ts behind : List Token} {m : Mistake} (hpos : 0 < m.left)
    (hle : m.left ≤ ts.length) (endLine endLine' : Nat) :
    (m.shift behind.length).diagnostic (before ++ ts ++ behind) endLine =
      m.diagnostic ts endLine' := by
  have hget : (before ++ ts ++ behind)[(before ++ ts ++ behind).length -
      (m.left + behind.length)]? = ts[ts.length - m.left]? := by
    have hindex : (before ++ ts ++ behind).length - (m.left + behind.length) =
        before.length + (ts.length - m.left) := by
      simp only [List.length_append]
      omega
    rw [hindex, List.append_assoc, List.getElem?_append_right (Nat.le_add_right _ _),
      Nat.add_sub_cancel_left, List.getElem?_append_left (by omega)]
  unfold diagnostic shift
  rw [hget, List.getElem?_eq_getElem (by omega)]

namespace Parser

/-- Tokens of which none ends a statement and none begins a block or a `for` loop. -/
def Bare (ts : List Token) : Prop :=
  ∀ t ∈ ts, t.kind ≠ .semicolon ∧ t.kind ≠ .leftBrace ∧ t.kind ≠ .forKw

theorem Bare.tail {t : Token} {ts : List Token} (h : Bare (t :: ts)) : Bare ts :=
  fun t' ht' => h t' (List.mem_cons_of_mem _ ht')

theorem Bare.suffix {ts us : List Token} (h : Bare ts) (hus : us <:+ ts) : Bare us :=
  fun t ht => h t (hus.subset ht)

/-- Mistakes behind which reading goes on, at one of the last `total` tokens. -/
def Remarks (total : Nat) (log : List Mistake) : Prop :=
  ∀ m ∈ log, 0 < m.left ∧ m.left ≤ total ∧ m.error.endsAttempt = false

theorem Remarks.nil {total : Nat} : Remarks total [] := fun _ h => absurd h List.not_mem_nil

theorem Remarks.append {total : Nat} {log log' : List Mistake} (h : Remarks total log)
    (h' : Remarks total log') : Remarks total (log ++ log') :=
  List.forall_mem_append.mpr ⟨h, h'⟩

/-! ## Fates -/

/-- What becomes of a rule in front of a semicolon. -/
inductive Fate (α : Type) where
  /-- It yields a value and leaves the given tokens and the semicolon. -/
  | waits (value : α) (rest : List Token) (log : List Mistake)
  /-- It takes everything up to the semicolon, and yields a value if nothing is behind. -/
  | ends (value : α) (log : List Mistake)
  /-- It gives up at the given tokens or at the semicolon. -/
  | givesUp (what : Expectation) (rest : List Token) (log : List Mistake)

namespace Fate

variable {α : Type} {total : Nat} {us vs : List Token}

/-- The result in front of a semicolon and the tokens behind it. -/
def result (semicolon : Token) (r : List Token) (mistakes : List Mistake) :
    Fate α → EStateM.Result Unit ParseState α
  | waits value rest log =>
      .ok value ⟨rest ++ semicolon :: r, mistakes ++ log.map (Mistake.shift r.length)⟩
  | ends value log => .ok value ⟨r, mistakes ++ log.map (Mistake.shift r.length)⟩
  | givesUp what rest log =>
      .error () ⟨rest ++ semicolon :: r, mistakes ++
        (log ++ [Mistake.mk (rest.length + 1) (.expected what)]).map (Mistake.shift r.length)⟩

/-- Whether the tokens behind the semicolon may be the given ones. -/
def Allows (r : List Token) : Fate α → Prop
  | ends .. => r = []
  | _ => True

/-- A fate on the given tokens, of a rule that takes the semicolon or of one that does
not. -/
def Fits (total : Nat) (takes : Bool) (us : List Token) : Fate α → Prop
  | waits _ rest log => takes = false ∧ rest <:+ us ∧ Remarks total log
  | ends _ log => takes = true ∧ Remarks total log
  | givesUp _ rest log => rest <:+ us ∧ Remarks total log

/-- The fate behind earlier remarks. -/
def behind (earlier : List Mistake) : Fate α → Fate α
  | waits value rest log => waits value rest (earlier ++ log)
  | ends value log => ends value (earlier ++ log)
  | givesUp what rest log => givesUp what rest (earlier ++ log)

theorem result_behind (semicolon : Token) (r : List Token) (mistakes earlier : List Mistake)
    (o : Fate α) : (o.behind earlier).result semicolon r mistakes =
      o.result semicolon r (mistakes ++ earlier.map (Mistake.shift r.length)) := by
  cases o <;> simp [behind, result]

theorem allows_behind {r : List Token} {earlier : List Mistake} {o : Fate α} :
    (o.behind earlier).Allows r ↔ o.Allows r := by
  cases o <;> rfl

theorem Fits.behind {takes : Bool} {earlier : List Mistake} {o : Fate α}
    (h : o.Fits total takes vs) (hvs : vs <:+ us) (hearlier : Remarks total earlier) :
    (o.behind earlier).Fits total takes us := by
  cases o with
  | waits value rest log => exact ⟨h.1, h.2.1.trans hvs, hearlier.append h.2.2⟩
  | ends value log => exact ⟨h.1, hearlier.append h.2⟩
  | givesUp what rest log => exact ⟨h.1.trans hvs, hearlier.append h.2⟩

end Fate

/-! ## Halts rules -/

section

variable {α β : Type} {total n m : Nat} {takes : Bool} {us vs : List Token}

/-- On the given tokens in front of a semicolon, the rule does the same whatever is
behind the semicolon. -/
def HaltsAt (total : Nat) (takes : Bool) (us : List Token) (x : Parser α) : Prop :=
  ∃ o : Fate α, o.Fits total takes us ∧ ∀ semicolon r mistakes,
    semicolon.kind = .semicolon → o.Allows r →
      x ⟨us ++ semicolon :: r, mistakes⟩ = o.result semicolon r mistakes

/-- On fewer than `n` bare tokens in front of a semicolon, the rule does the same whatever
is behind the semicolon. -/
def Halts (total : Nat) (takes : Bool) (n : Nat) (x : Parser α) : Prop :=
  ∀ us : List Token, Bare us → us.length < n → HaltsAt total takes us x

theorem HaltsAt.of_behind {x y : Parser α} {earlier : List Mistake}
    (hy : HaltsAt total takes vs y) (hvs : vs <:+ us) (hearlier : Remarks total earlier)
    (h : ∀ semicolon r mistakes, semicolon.kind = .semicolon →
      x ⟨us ++ semicolon :: r, mistakes⟩ =
        y ⟨vs ++ semicolon :: r, mistakes ++ earlier.map (Mistake.shift r.length)⟩) :
    HaltsAt total takes us x := by
  obtain ⟨o, ho, hresult⟩ := hy
  refine ⟨o.behind earlier, ho.behind hvs hearlier, fun semicolon r mistakes hs hallows => ?_⟩
  rw [h semicolon r mistakes hs, hresult semicolon r _ hs (Fate.allows_behind.mp hallows),
    Fate.result_behind]

theorem HaltsAt.congr {x y : Parser α} (hy : HaltsAt total takes us y)
    (h : ∀ semicolon r mistakes, semicolon.kind = .semicolon →
      x ⟨us ++ semicolon :: r, mistakes⟩ = y ⟨us ++ semicolon :: r, mistakes⟩) :
    HaltsAt total takes us x := by
  obtain ⟨o, ho, hresult⟩ := hy
  exact ⟨o, ho, fun semicolon r mistakes hs hallows =>
    (h semicolon r mistakes hs).trans (hresult semicolon r mistakes hs hallows)⟩

namespace Halts

variable {x : Parser α} {f : α → Parser β}

/-! ### Rules in sequence -/

theorem zero : Halts total takes 0 x := fun _ _ hus => absurd hus (Nat.not_lt_zero _)

theorem mono (hx : Halts total takes n x) (hm : m ≤ n) : Halts total takes m x :=
  fun us hbare hus => hx us hbare (hus.trans_le hm)

theorem pure (a : α) : Halts total false n (Pure.pure a) := by
  intro us _ _
  refine ⟨.waits a us [], ⟨rfl, List.suffix_refl us, .nil⟩, fun semicolon r mistakes _ _ => ?_⟩
  simp only [Fate.result, List.map_nil, List.append_nil]
  rfl

theorem giveUp (what : Expectation) : Halts total takes n (giveUp what : Parser α) := by
  intro us _ _
  refine ⟨.givesUp what us [], ⟨List.suffix_refl us, .nil⟩, fun semicolon r mistakes _ _ => ?_⟩
  show EStateM.Result.error () _ = _
  simp [Fate.result, Mistake.shift, Nat.add_assoc, Nat.add_comm 1]

theorem bind (hx : Halts total false n x) (hf : ∀ a, Halts total takes n (f a)) :
    Halts total takes n (x >>= f) := by
  intro us hbare hus
  obtain ⟨o, ho, hresult⟩ := hx us hbare hus
  cases o with
  | ends a log => exact absurd ho.1 Bool.false_ne_true
  | givesUp what rest log =>
    refine ⟨.givesUp what rest log, ho, fun semicolon r mistakes hs _ => ?_⟩
    rw [bind_apply, hresult semicolon r mistakes hs trivial]
    rfl
  | waits a rest log =>
    obtain ⟨-, hrest, hlog⟩ := ho
    refine (hf a rest (hbare.suffix hrest) (hrest.length_le.trans_lt hus)).of_behind hrest hlog
      fun semicolon r mistakes hs => ?_
    rw [bind_apply, hresult semicolon r mistakes hs trivial]
    rfl

/-- A rule that takes the semicolon, and one that has nothing to take at the end. -/
theorem bindEnd (hx : Halts total true n x)
    (hf : ∀ a, ∃ b, ∀ mistakes, f a ⟨[], mistakes⟩ = .ok b ⟨[], mistakes⟩) :
    Halts total true n (x >>= f) := by
  intro us hbare hus
  obtain ⟨o, ho, hresult⟩ := hx us hbare hus
  cases o with
  | waits a rest log => exact absurd ho.1.symm Bool.false_ne_true
  | givesUp what rest log =>
    refine ⟨.givesUp what rest log, ho, fun semicolon r mistakes hs _ => ?_⟩
    rw [bind_apply, hresult semicolon r mistakes hs trivial]
    rfl
  | ends a log =>
    obtain ⟨b, hb⟩ := hf a
    refine ⟨.ends b log, ho, fun semicolon r mistakes hs hr => ?_⟩
    obtain rfl : r = [] := hr
    rw [bind_apply, hresult semicolon [] mistakes hs rfl]
    exact hb _

/-- A last step that only shapes the value. -/
theorem last {g : α → β} (hx : Halts total false n x) :
    Halts total false n (x >>= fun a => Pure.pure (g a)) :=
  hx.bind fun a => .pure (g a)

theorem map {g : α → β} (hx : Halts total false n x) : Halts total false n (g <$> x) :=
  hx.last

theorem lastEnd {g : α → β} (hx : Halts total true n x) :
    Halts total true n (x >>= fun a => Pure.pure (g a)) :=
  hx.bindEnd fun a => ⟨g a, fun _ => rfl⟩

/-! ### Looking ahead -/

/-- A choice by the next token, which is taken in some of the cases. -/
theorem peekTaking {g : Option TokenKind → Parser β}
    (hg : ∀ k, Halts total takes n (g k) ∨
      ∃ (kind : TokenKind) (y : Parser β), k = some kind ∧ kind ≠ .semicolon ∧
        g k = (Parser.accept kind >>= fun _ => y) ∧ Halts total takes (n - 1) y) :
    Halts total takes n (Parser.peek >>= g) := by
  intro us hbare hus
  cases us with
  | nil =>
    have hnil : HaltsAt total takes [] (g (some .semicolon)) := by
      rcases hg (some .semicolon) with h | ⟨kind, y, hk, hkind, -⟩
      · exact h [] hbare hus
      · exact absurd (Option.some.inj hk).symm hkind
    refine hnil.congr fun semicolon r mistakes hs => ?_
    show g (some semicolon.kind) _ = _
    rw [hs]
  | cons t vs =>
    rcases hg (some t.kind) with h | ⟨kind, y, hk, -, hy, h⟩
    · exact h (t :: vs) hbare hus
    · obtain rfl := Option.some.inj hk
      rw [List.length_cons] at hus
      refine (h vs hbare.tail (by omega)).of_behind (List.suffix_cons t vs) .nil
        fun semicolon r mistakes _ => ?_
      show g (some t.kind) _ = _
      rw [hy]
      simp [bind_apply, Parser.accept, Parser.take?]

theorem peek {g : Option TokenKind → Parser β} (hg : ∀ k, Halts total takes n (g k)) :
    Halts total takes n (Parser.peek >>= g) :=
  peekTaking fun k => .inl (hg k)

theorem nextIs {kind : TokenKind} {g : Bool → Parser β} (hg : ∀ c, Halts total takes n (g c)) :
    Halts total takes n (Parser.nextIs kind >>= g) := by
  have h : Halts total takes n (Parser.peek >>= fun k => g (decide (k = some kind))) :=
    peek fun k => hg _
  exact h

/-- A token that is taken if `select` has a value for it, which it has for no
semicolon. -/
theorem take? {select : Token → Option α} {g : Option α → Parser β}
    (hsemicolon : ∀ t, t.kind = .semicolon → select t = none)
    (hnone : Halts total takes n (g none))
    (hsome : ∀ t a, Bare [t] → select t = some a → Halts total takes (n - 1) (g (some a))) :
    Halts total takes n (Parser.take? select >>= g) := by
  intro us hbare hus
  cases us with
  | nil =>
    refine (hnone [] hbare hus).congr fun semicolon r mistakes hs => ?_
    simp [bind_apply, Parser.take?, hsemicolon semicolon hs]
  | cons t vs =>
    cases ha : select t with
    | none =>
      refine (hnone _ hbare hus).congr fun semicolon r mistakes _ => ?_
      simp [bind_apply, Parser.take?, ha]
    | some a =>
      have ht : Bare [t] := fun t' ht' =>
        hbare t' (List.mem_singleton.mp ht' ▸ List.mem_cons_self ..)
      rw [List.length_cons] at hus
      refine (hsome t a ht ha vs hbare.tail (by omega)).of_behind (List.suffix_cons t vs) .nil
        fun semicolon r mistakes _ => ?_
      simp [bind_apply, Parser.take?, ha]

theorem accept {kind : TokenKind} {g : Option Token → Parser β} (hkind : kind ≠ .semicolon)
    (hnone : Halts total takes n (g none))
    (hsome : ∀ t, Halts total takes (n - 1) (g (some t))) :
    Halts total takes n (Parser.accept kind >>= g) :=
  take? (fun _ ht => if_neg (ht ▸ hkind.symm)) hnone fun _ a _ _ => hsome a

/-- A token that must have the given kind but does not come next. -/
theorem expect_giveUp {kind : TokenKind} {what : Expectation} {g : Token → Parser β}
    {s : ParseState} (h : ∀ t ts, s.rest = t :: ts → t.kind ≠ kind) :
    (Parser.expect kind what >>= g) s = Parser.giveUp what s := by
  obtain ⟨rest, mistakes⟩ := s
  cases rest with
  | nil => rfl
  | cons t ts =>
    have hnone : Parser.accept kind ⟨t :: ts, mistakes⟩ = .ok none ⟨t :: ts, mistakes⟩ := by
      simp [Parser.accept, Parser.take?, h t ts rfl]
    have hexpect : Parser.expect kind what ⟨t :: ts, mistakes⟩ =
        Parser.giveUp what ⟨t :: ts, mistakes⟩ := by
      unfold Parser.expect
      rw [bind_apply, hnone]
    rw [bind_apply, hexpect]
    rfl

/-- A token that must have the given kind. -/
theorem expect {kind : TokenKind} {what : Expectation} {g : Token → Parser β}
    (hkind : kind ≠ .semicolon) (hg : ∀ t, Halts total takes (n - 1) (g t)) :
    Halts total takes n (Parser.expect kind what >>= g) := by
  intro us hbare hus
  have hgiveUp : HaltsAt total takes us (Parser.giveUp what : Parser β) :=
    giveUp what us hbare hus
  cases us with
  | nil =>
    refine hgiveUp.congr fun semicolon r mistakes hs => expect_giveUp fun t ts ht => ?_
    rw [← (List.cons.inj ht).1, hs]
    exact hkind.symm
  | cons t vs =>
    by_cases ht : t.kind = kind
    · rw [List.length_cons] at hus
      refine (hg t vs hbare.tail (by omega)).of_behind (List.suffix_cons t vs) .nil
        fun semicolon r mistakes _ => ?_
      simp [bind_apply, Parser.expect, Parser.accept, Parser.take?, ht, Pure.pure, EStateM.pure]
    · exact hgiveUp.congr fun semicolon r mistakes _ => expect_giveUp fun t' ts ht' =>
        (List.cons.inj ht').1 ▸ ht

/-- The semicolon, which nothing is in front of if the rule does not give up. -/
theorem semicolon {what : Expectation} {b : β} :
    Halts total true n (Parser.expect .semicolon what >>= fun _ => Pure.pure b) := by
  intro us hbare hus
  cases us with
  | nil =>
    refine ⟨.ends b [], ⟨rfl, .nil⟩, fun semicolon r mistakes hs hr => ?_⟩
    simp [bind_apply, Parser.expect, Parser.accept, Parser.take?, hs, Fate.result, Pure.pure,
      EStateM.pure]
  | cons t vs =>
    have hgiveUp : HaltsAt total true (t :: vs) (Parser.giveUp what : Parser β) :=
      giveUp what (t :: vs) hbare hus
    exact hgiveUp.congr fun semicolon r mistakes _ => expect_giveUp fun t' ts ht' =>
      (List.cons.inj ht').1 ▸ (hbare t (List.mem_cons_self ..)).1

/-- A brace, in front of which the rule gives up. -/
theorem brace {what : Expectation} {g : Token → Parser β} :
    Halts total takes n (Parser.expect .leftBrace what >>= g) := by
  intro us hbare hus
  have hgiveUp : HaltsAt total takes us (Parser.giveUp what : Parser β) :=
    giveUp what us hbare hus
  refine hgiveUp.congr fun semicolon r mistakes hs => expect_giveUp fun t ts ht => ?_
  cases us with
  | nil =>
    rw [← (List.cons.inj ht).1, hs]
    decide
  | cons t' vs => exact (List.cons.inj ht).1 ▸ (hbare t' (List.mem_cons_self ..)).2.1

theorem name (what : Expectation) : Halts total false n (Parser.expectName what) :=
  expect (by decide) fun _ => pure _

theorem expectName {what : Expectation} {g : Name → Parser β}
    (hg : ∀ name, Halts total takes (n - 1) (g name)) :
    Halts total takes n (Parser.expectName what >>= g) := by
  have h : Halts total takes n (Parser.expect .identifier what >>= fun t => g ⟨t.text, t.line⟩) :=
    expect (by decide) fun t => hg _
  have heq : (Parser.expectName what >>= g) =
      (Parser.expect .identifier what >>= fun t => g ⟨t.text, t.line⟩) := by
    simp [Parser.expectName]
  rwa [heq]

/-! ### Remarks -/

theorem report {error : SyntaxError} (hn : n ≤ total) (herror : error.endsAttempt = false) :
    Halts total false n (Parser.report error) := by
  intro us _ hus
  have hremark : Remarks total [⟨us.length + 1, error⟩] :=
    List.forall_mem_singleton.mpr ⟨Nat.succ_pos _, hus.trans_le hn, herror⟩
  refine ⟨.waits () us [⟨us.length + 1, error⟩], ⟨rfl, List.suffix_refl us, hremark⟩,
    fun semicolon r mistakes _ _ => ?_⟩
  show EStateM.Result.ok () _ = _
  simp [Fate.result, Mistake.shift, Nat.add_assoc, Nat.add_comm 1]

/-- A step before which a mistake may be reported. -/
theorem reportIf {c : Prop} [Decidable c] {error : SyntaxError} (hn : n ≤ total)
    (herror : error.endsAttempt = false) (hx : Halts total takes n x) :
    Halts total takes n (if c then Parser.report error >>= fun _ => x else x) := by
  split
  · exact (report hn herror).bind fun _ => hx
  · exact hx

/-- A step behind which a mistake may be reported at the token in front of it. -/
theorem reportBehind {g : ParseState → α → Parser β} {error : SyntaxError} (hn : n < total)
    (herror : error.endsAttempt = false) (hx : Halts total false n x)
    (hg : ∀ a, ∃ b, (∀ s, g s a = Pure.pure b) ∨ ∀ s, g s a =
      (Parser.reportAt (s.rest.length + 1) error >>= fun _ => Pure.pure b)) :
    Halts total false n (MonadState.get >>= fun s => x >>= g s) := by
  intro us hbare hus
  obtain ⟨o, ho, hresult⟩ := hx us hbare hus
  have happly (s : ParseState) : (MonadState.get >>= fun s => x >>= g s) s = (x >>= g s) s := rfl
  cases o with
  | ends a log => exact absurd ho.1 Bool.false_ne_true
  | givesUp what rest log =>
    refine ⟨.givesUp what rest log, ho, fun semicolon r mistakes hs _ => ?_⟩
    rw [happly, bind_apply, hresult semicolon r mistakes hs trivial]
    rfl
  | waits a rest log =>
    obtain ⟨-, hrest, hlog⟩ := ho
    obtain ⟨b, hb | hb⟩ := hg a
    · refine ⟨.waits b rest log, ⟨rfl, hrest, hlog⟩, fun semicolon r mistakes hs _ => ?_⟩
      rw [happly, bind_apply, hresult semicolon r mistakes hs trivial]
      simp only [Fate.result, hb]
      rfl
    · have hlength : us.length + 2 ≤ total := by omega
      have hremark : Remarks total [⟨us.length + 2, error⟩] :=
        List.forall_mem_singleton.mpr ⟨Nat.succ_pos _, hlength, herror⟩
      refine ⟨.waits b rest (log ++ [⟨us.length + 2, error⟩]),
        ⟨rfl, hrest, hlog.append hremark⟩, fun semicolon r mistakes hs _ => ?_⟩
      rw [happly, bind_apply, hresult semicolon r mistakes hs trivial]
      simp only [Fate.result, hb]
      show EStateM.Result.ok b _ = _
      simp [Mistake.shift]
      omega

end Halts

end

end Parser

end ClassScript
