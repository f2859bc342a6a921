import ClassScript.Proofs.Syntax.Chain
import ClassScript.Proofs.Syntax.Reading

/-!
# Rules that take tokens

`Takes x ts a r` says that the rule `x`, before the tokens `ts` and the tokens `r`
behind them, takes exactly `ts`, reports nothing and yields `a`.  Rules in sequence take
their tokens in sequence (`Takes.bind`), and a list takes its items and commas
(`Takes.separated`, `Takes.parenthesized`).
-/

namespace ClassScript

namespace Parser

/-- From the tokens `ts` and the tokens `r` behind them, the rule takes `ts` and yields
`a`, and reports nothing. -/
def Takes {α : Type} (x : Parser α) (ts : List Token) (a : α) (r : List Token) : Prop :=
  ∀ mistakes, x ⟨ts ++ r, mistakes⟩ = .ok a ⟨r, mistakes⟩

/-! ## Rules in sequence -/

namespace Takes

variable {α β : Type} {x : Parser α} {f : α → Parser β} {a : α} {b : β} {t : Token}
  {ts us r : List Token}

theorem pure (a : α) : Takes (pure a) [] a r := fun _ => rfl

theorem bind (hx : Takes x ts a (us ++ r)) (hf : Takes (f a) us b r) :
    Takes (x >>= f) (ts ++ us) b r := by
  intro mistakes
  rw [bind_apply, List.append_assoc, hx]
  exact hf mistakes

/-- A step that takes everything. -/
theorem bind_nil (hx : Takes x ts a r) (hf : Takes (f a) [] b r) : Takes (x >>= f) ts b r := by
  have h : Takes (x >>= f) (ts ++ []) b r := bind hx hf
  rwa [List.append_nil] at h

/-- A step that takes a token. -/
theorem token (hx : Takes x [t] a (ts ++ r)) (hf : Takes (f a) ts b r) :
    Takes (x >>= f) (t :: ts) b r :=
  hx.bind hf

/-- A step that takes nothing. -/
theorem nothing (hx : Takes x [] a (ts ++ r)) (hf : Takes (f a) ts b r) :
    Takes (x >>= f) ts b r :=
  hx.bind hf

/-- A last step that only shapes the value. -/
theorem last (hx : Takes x ts a r) (hf : f a = Pure.pure b) : Takes (x >>= f) ts b r := by
  intro mistakes
  rw [bind_apply, hx]
  show f a _ = _
  rw [hf]
  rfl

/-- A step that looks at the state. -/
theorem get {g : ParseState → Parser β} (hg : ∀ s, Takes (g s) ts b r) :
    Takes (MonadState.get >>= g) ts b r :=
  fun mistakes => hg _ mistakes

/-! ### Single tokens -/

theorem peek {g : Option TokenKind → Parser β} {k : Option TokenKind}
    (hk : (ts ++ r).head?.map Token.kind = k) (hg : Takes (g k) ts b r) :
    Takes (Parser.peek >>= g) ts b r := by
  intro mistakes
  have h : Parser.peek ⟨ts ++ r, mistakes⟩ = .ok k ⟨ts ++ r, mistakes⟩ := by
    rw [← hk]
    rfl
  rw [bind_apply, h]
  exact hg mistakes

theorem nextIs {kind : TokenKind} {c : Bool}
    (hc : c = decide ((r.head?.map Token.kind) = some kind)) :
    Takes (Parser.nextIs kind) [] c r := by
  intro mistakes
  rw [hc]
  rfl

theorem take?_some {select : Token → Option α} (h : select t = some a) :
    Takes (take? select) [t] (some a) r := by
  intro mistakes
  simp [take?, h]

theorem take?_none {select : Token → Option α} (h : ∀ t us, r = t :: us → select t = none) :
    Takes (take? select) [] none r := by
  intro mistakes
  cases r with
  | nil => rfl
  | cons t us => simp [take?, h t us rfl]

theorem accept_some {kind : TokenKind} (h : t.kind = kind) :
    Takes (accept kind) [t] (some t) r :=
  take?_some (if_pos h)

theorem accept_none {kind : TokenKind} (h : ∀ t us, r = t :: us → t.kind ≠ kind) :
    Takes (accept kind) [] none r :=
  take?_none fun t us ht => if_neg (h t us ht)

theorem expect {kind : TokenKind} (what : Expectation) (h : t.kind = kind) :
    Takes (expect kind what) [t] t r :=
  token (accept_some h) (pure t)

theorem expectName (what : Expectation) (h : t.kind = .identifier) :
    Takes (expectName what) [t] t.name r :=
  token (expect what h) (pure _)

theorem nextIsFunction_true {t' : Token} (h : t.kind = .funKw) (h' : t'.kind = .identifier) :
    Takes nextIsFunction [] true (t :: t' :: r) := by
  intro mistakes
  simp [nextIsFunction, h, h']

theorem nextIsFunction_false
    (h : ∀ t t' us, r = t :: t' :: us → t.kind = .funKw → t'.kind ≠ .identifier) :
    Takes nextIsFunction [] false r := by
  intro mistakes
  rcases r with _ | ⟨t, _ | ⟨t', us⟩⟩
  · rfl
  · rfl
  · simpa [nextIsFunction] using h t t' us rfl

/-- A token that is no `fun`, or one that has a parenthesis behind it, starts no function. -/
theorem nextIsFunction_of_head
    (h : t.kind = .funKw → ∃ t' us, r = t' :: us ∧ t'.kind = .leftParen) :
    Takes nextIsFunction [] false (t :: r) := by
  refine nextIsFunction_false ?_
  rintro _ _ _ ⟨⟩ hk
  obtain ⟨_, _, ⟨⟩, hparen⟩ := h hk
  rw [hparen]
  decide

/-! ### Lists -/

/-- One item of a list that is not too long yet, and what follows it. -/
theorem separated_succ {tooMany : SyntaxError} {item : Parser α} {bound count : Nat}
    (hcount : count < maxArguments) :
    Parser.separated tooMany item (bound + 1) count = (do
      let first ← item
      match ← accept .comma with
      | none => return [first]
      | some _ => return first :: (← Parser.separated tooMany item bound (count + 1))) :=
  if_neg (Nat.not_le.mpr hcount)

theorem separated {Item : List Token → α → Prop} {item : Parser α} {as : List α} {n : Nat}
    (tooMany : SyntaxError) {closing : Token}
    (hitem : ∀ us a t vs, Item us a → t.kind = .comma ∨ t.kind = .rightParen →
      (us ++ t :: vs).length < n → Takes item us a (t :: vs))
    (hc : closing.kind = .rightParen) (h : Separated Item ts as) (hne : as ≠ []) (bound : Nat)
    (hbound : as.length ≤ bound) (count : Nat) (hcount : count + as.length ≤ maxArguments)
    (hn : (ts ++ closing :: r).length < n) :
    Takes (Parser.separated tooMany item bound count) ts as (closing :: r) := by
  induction h generalizing bound count with
  | nil => exact absurd rfl hne
  | @single ts a ha =>
    cases bound with
    | zero => simp at hbound
    | succ bound =>
      have hnone : Takes (accept .comma) [] none (closing :: r) :=
        accept_none fun t us ht => by cases ht; rw [hc]; decide
      rw [separated_succ (Nat.lt_of_succ_le (by simpa using hcount))]
      exact bind_nil (hitem ts a closing r ha (.inr hc) hn) (hnone.last rfl)
  | @cons ts us comma a b rest ha hcomma _ ih =>
    cases bound with
    | zero => simp at hbound
    | succ bound =>
      simp only [List.length_cons, List.length_append] at hbound hcount hn
      have hitem' := hitem ts a comma (us ++ closing :: r) ha (.inl hcomma)
        (by simp only [List.length_cons, List.length_append]; omega)
      have hrest := ih (by simp) bound (by simp only [List.length_cons]; omega) (count + 1)
        (by simp only [List.length_cons]; omega)
        (by simp only [List.length_cons, List.length_append]; omega)
      rw [separated_succ (by omega)]
      exact hitem'.bind (token (accept_some hcomma) (hrest.last rfl))

/-- A list up to a closing parenthesis. -/
theorem parenthesized {Item : List Token → α → Prop} {item : Parser α} {as : List α}
    {n bound : Nat} (tooMany : SyntaxError) (ending : Expectation) {closing : Token}
    (hitem : ∀ us a t vs, Item us a → t.kind = .comma ∨ t.kind = .rightParen →
      (us ++ t :: vs).length < n → Takes item us a (t :: vs))
    (hstart : ∀ us a, Item us a → ∃ t vs, us = t :: vs ∧ t.kind ≠ .rightParen)
    (hc : closing.kind = .rightParen) (h : Separated Item ts as) (hbound : n ≤ bound)
    (hcount : as.length ≤ maxArguments) (hn : (ts ++ closing :: r).length < n) :
    Takes (Parser.parenthesized tooMany ending item bound) (ts ++ [closing])
      (as, closing.line) r := by
  have hclose : Takes (Parser.expect .rightParen ending >>= fun paren =>
      Pure.pure (as, paren.line)) [closing] (as, closing.line) r :=
    (expect ending hc).last rfl
  by_cases hne : as = []
  · subst hne
    cases h
    refine nothing (nextIs (c := true) (by simp [hc])) ?_
    exact nothing (pure _) hclose
  · have hfirst : ∃ t vs, ts = t :: vs ∧ t.kind ≠ .rightParen := by
      cases h with
      | nil => exact absurd rfl hne
      | single ha => exact hstart _ _ ha
      | cons ha =>
        obtain ⟨t, vs, rfl, ht⟩ := hstart _ _ ha
        exact ⟨t, vs ++ _, rfl, ht⟩
    obtain ⟨t, vs, rfl, ht⟩ := hfirst
    refine nothing (nextIs (c := false) (by simp [ht])) ?_
    have hlength := h.length_le
    have hn' := hn
    simp only [List.length_append, List.length_cons] at hn' hlength
    exact bind (separated tooMany hitem hc h hne _ (by omega) _ (by omega) hn) hclose

theorem parameters {names : List Name} {n bound : Nat} {closing : Token}
    (hc : closing.kind = .rightParen) (h : Separated Token.Names ts names) (hbound : n ≤ bound)
    (hcount : names.length ≤ maxArguments) (hn : (ts ++ closing :: r).length < n) :
    Takes (Parser.parameters bound) (ts ++ [closing]) names r := by
  refine (parenthesized .tooManyParameters .parametersEnd ?_ ?_ hc h hbound hcount hn).last rfl
  · rintro us a t vs ⟨t', ht', rfl, rfl⟩ - -
    exact expectName _ ht'
  · rintro us a ⟨t', ht', rfl, rfl⟩
    exact ⟨t', [], rfl, by rw [ht']; decide⟩

end Takes

end Parser

end ClassScript
