import ClassScript.Proofs.Renaming.Scopes
import ClassScript.Proofs.Shape.Relation

/-!
# Scopes with and without those of rounds

The walk over a tree whose loops are written out opens a scope for each round, and the walk
that knows rounds does not.  The scopes that are open in both are the same ones, and an
extra one is empty (`Stacks`): a round declares nothing.  So a name is found in the same
scope, as far out as the marks say (`Stacks.binding`).

An extra scope does hide something: a name that is being declared in the scope around it.
No loop stands in the initializer of a variable, though, unless a function is in between.
So nothing is being declared where an extra scope opens.

`Shadows` says of a step of either walk that they do the same: they report the same, record
equally many references and enter the same names.
-/

namespace ClassScript

/-! ## Bindings -/

section

variable {marks : List ScopeMark} {b b' : Binding}

theorem Binding.Shifted.out (h : b.Shifted marks b') :
    b.outward.Shifted (.shared :: marks) b'.outward := by
  cases h with
  | global => exact .global
  | «local» hd => exact .local (.out hd)

theorem Binding.Shifted.skip (h : b.Shifted marks b') :
    b.outward.Shifted (.extra :: marks) b' := by
  cases h with
  | global => exact .global
  | «local» hd => exact .local (.skip hd)

end

namespace Resolution

/-! ## Open scopes -/

/-- Nothing is in the middle of its declaration in the innermost scope. -/
def Settled (scopes : List StaticScope) : Prop := ∀ x, beingDeclared x scopes = false

theorem Settled.enter {scopes : List StaticScope} (h : Settled scopes) (x : String) :
    Settled (enter x true scopes) := by
  intro y
  by_cases hxy : x = y
  · subst hxy
    cases scopes with
    | nil => rfl
    | cons scope outer => simp [beingDeclared, Resolution.enter]
  · rw [beingDeclared_enter hxy, h]

theorem Settled.enterAll {scopes : List StaticScope} (h : Settled scopes) (names : List String) :
    Settled (enterAll names scopes) := by
  induction names generalizing scopes with
  | nil => exact h
  | cons x rest ih => exact ih (h.enter x)

/-- Only ordinary names are entered, so `super` is not. -/
theorem declaredInnermost_enter {x y : String} (hne : x ≠ y) (ready : Bool)
    (scopes : List StaticScope) :
    declaredInnermost y (enter x ready scopes) = declaredInnermost y scopes := by
  cases scopes with
  | nil => rfl
  | cons scope outer =>
    simp [declaredInnermost, enter, Slots.contains, Slots.get?_set_of_ne _ _ hne]

theorem declaredInnermost_enterAll {names : List String} {y : String} (hne : y ∉ names)
    (scopes : List StaticScope) :
    declaredInnermost y (enterAll names scopes) = declaredInnermost y scopes := by
  induction names generalizing scopes with
  | nil => rfl
  | cons x rest ih =>
    obtain ⟨hx, hrest⟩ := List.ne_and_not_mem_of_not_mem_cons hne
    exact (ih hrest _).trans (declaredInnermost_enter hx.symm true scopes)

/-- The scopes that are open in the two walks.  An extra one is empty.  It is not the one
right inside the scope of `super`. -/
inductive Stacks : List ScopeMark → List StaticScope → List StaticScope → Prop where
  | nil : Stacks [] [] []
  | shared {marks : List ScopeMark} {ss ss' : List StaticScope} (scope : StaticScope) :
      Stacks marks ss ss' → Stacks (.shared :: marks) (scope :: ss) (scope :: ss')
  | extra {marks : List ScopeMark} {ss ss' : List StaticScope} : Stacks marks ss ss' →
      declaredInnermost "super" ss = false → Settled ss' → Stacks (.extra :: marks) (∅ :: ss) ss'

namespace Stacks

variable {marks : List ScopeMark} {ss ss' : List StaticScope}

theorem binding (h : Stacks marks ss ss') (x : String) :
    Binding.Shifted marks (bindingOf x ss) (bindingOf x ss') := by
  induction h with
  | nil => exact .global
  | shared scope _ ih =>
    rw [bindingOf_cons, bindingOf_cons]
    split
    · exact .local .here
    · exact ih.out
  | extra _ _ _ ih => exact (bindingOf_cons x ..).symm ▸ ih.skip

/-- Where `super` is found: nowhere, in the innermost scope, or further out with a shared
scope right inside. -/
theorem superBinding (h : Stacks marks ss ss') :
    (bindingOf "super" ss = .global ∧ bindingOf "super" ss' = .global) ∨
      (declaredInnermost "super" ss = true ∧ bindingOf "super" ss = .local 0 ∧
        bindingOf "super" ss' = .local 0 ∧ Shifts marks 0 0) ∨
      ∃ d d', bindingOf "super" ss = .local (d + 1) ∧ bindingOf "super" ss' = .local (d' + 1) ∧
        Shifts marks (d + 1) (d' + 1) ∧ Shifts marks d d' := by
  induction h with
  | nil => exact .inl ⟨rfl, rfl⟩
  | shared scope _ ih =>
    rw [bindingOf_cons, bindingOf_cons]
    split
    · exact .inr (.inl ⟨‹_›, rfl, rfl, .here⟩)
    · obtain ⟨hb, hb'⟩ | ⟨-, hb, hb', hd⟩ | ⟨d, d', hb, hb', hd, hin⟩ := ih <;> rw [hb, hb']
      · exact .inl ⟨rfl, rfl⟩
      · exact .inr (.inr ⟨0, 0, rfl, rfl, .out hd, .here⟩)
      · exact .inr (.inr ⟨d + 1, d' + 1, rfl, rfl, .out hd, .out hin⟩)
  | extra _ hplain _ ih =>
    rw [bindingOf_cons]
    obtain ⟨hb, hb'⟩ | ⟨hheld, -⟩ | ⟨d, d', hb, hb', hd, hin⟩ := ih
    · rw [hb, hb']
      exact .inl ⟨rfl, rfl⟩
    · rw [hplain] at hheld
      cases hheld
    · rw [hb, hb']
      exact .inr (.inr ⟨d + 1, d', rfl, rfl, .skip hd, .skip hin⟩)

theorem shiftedSuper (h : Stacks marks ss ss') (hplain : declaredInnermost "super" ss = false) :
    Binding.ShiftedSuper marks (bindingOf "super" ss) (bindingOf "super" ss') := by
  obtain ⟨hb, hb'⟩ | ⟨hheld, -⟩ | ⟨d, d', hb, hb', hd, hin⟩ := h.superBinding
  · rw [hb, hb']
    exact .global
  · rw [hplain] at hheld
    cases hheld
  · rw [hb, hb']
    exact .local hd hin

theorem beingDeclared (h : Stacks marks ss ss') (x : String) :
    beingDeclared x ss = Resolution.beingDeclared x ss' := by
  cases h with
  | nil => rfl
  | shared scope h => rfl
  | extra h hplain hsettled => exact (hsettled x).symm

/-- The innermost scope is the same one, if it is shared. -/
theorem declaredInnermost (h : Stacks marks ss ss') (hm : Shifts marks 0 0) (x : String) :
    declaredInnermost x ss = Resolution.declaredInnermost x ss' := by
  cases h with
  | nil => rfl
  | shared scope h => rfl
  | extra h hplain hsettled => cases hm

theorem enter (h : Stacks marks ss ss') (hm : Shifts marks 0 0) (x : String) (ready : Bool) :
    Stacks marks (enter x ready ss) (Resolution.enter x ready ss') := by
  cases h with
  | nil => exact .nil
  | shared scope h => exact .shared _ h
  | extra h hplain hsettled => cases hm

theorem enterAll (h : Stacks marks ss ss') {names : List String}
    (hm : names ≠ [] → Shifts marks 0 0) :
    Stacks marks (enterAll names ss) (Resolution.enterAll names ss') := by
  induction names generalizing ss ss' with
  | nil => exact h
  | cons x rest ih =>
    have hshared := hm (List.cons_ne_nil _ _)
    exact ih (h.enter hshared x true) fun _ => hshared

end Stacks

/-! ## States of the walks -/

theorem declare_snd (name : Name) (s : State) :
    (declare name s).2 =
      let s := if declaredInnermost name.text s.scopes then (report name .alreadyDeclared s).2
        else s
      { s with scopes := enter name.text false s.scopes } := by
  show ((if declaredInnermost name.text s.scopes then
      report name .alreadyDeclared >>= fun _ => modify _ else modify _ : Walk Unit) s).2 = _
  split <;> rfl

/-- The walks have gone equally far. -/
structure Meets (marks : List ScopeMark) (s s' : State) : Prop where
  scopes : Stacks marks s.scopes s'.scopes
  plain : declaredInnermost "super" s.scopes = false
  diagnostics : s'.diagnostics = s.diagnostics
  references : s'.references.size = s.references.size

/-- What a step of the walks that enters the given names comes to. -/
structure Entered (names : List String) (s s' t t' : State) : Prop where
  scopes : t.scopes = enterAll names s.scopes
  scopes' : t'.scopes = enterAll names s'.scopes
  diagnostics : t'.diagnostics = t.diagnostics
  references : t'.references.size = t.references.size

/-- The names that are entered are entered into a shared scope, and `super` is none of
them. -/
structure Enterable (marks : List ScopeMark) (names : List String) : Prop where
  shared : names ≠ [] → Shifts marks 0 0
  plain : "super" ∉ names

theorem Enterable.nil (marks : List ScopeMark) : Enterable marks [] := ⟨nofun, nofun⟩

theorem Meets.after {marks : List ScopeMark} {names : List String} {s s' t t' : State}
    (h : Meets marks s s') (hn : Enterable marks names) (he : Entered names s s' t t') :
    Meets marks t t' where
  scopes := by
    rw [he.scopes, he.scopes']
    exact h.scopes.enterAll hn.shared
  plain := by rw [he.scopes, declaredInnermost_enterAll hn.plain, h.plain]
  diagnostics := he.diagnostics
  references := he.references

/-- The step `y` of the walk that knows rounds does what the step `x` does, and their values
are related.  Both enter the given names.  If they start where nothing is being declared, it
is *settled*. -/
def Shadows {α α' : Type} (settled : Bool) (marks : List ScopeMark) (names : List String)
    (Q : α → α' → Prop) (x : Walk α) (y : Walk α') : Prop :=
  ∀ s s', Meets marks s s' → (settled = true → Settled s'.scopes) →
    Q (x s).1 (y s').1 ∧ Entered names s s' (x s).2 (y s').2

namespace Shadows

variable {α α' β β' : Type} {settled : Bool} {marks : List ScopeMark} {names more : List String}
  {Q : α → α' → Prop} {R : β → β' → Prop} {x : Walk α} {y : Walk α'}

theorem pure {a : α} {b : α'} (h : Q a b) :
    Shadows settled marks [] Q (pure a) (Pure.pure b) :=
  fun _ _ hs _ => ⟨h, rfl, rfl, hs.diagnostics, hs.references⟩

theorem bind {f : α → Walk β} {f' : α' → Walk β'} (hn : Enterable marks names)
    (h : Shadows settled marks names Q x y)
    (h' : ∀ a a', Q a a' → Shadows settled marks more R (f a) (f' a')) :
    Shadows settled marks (names ++ more) R (x >>= f) (y >>= f') := by
  intro s s' hs hsettled
  obtain ⟨hq, he⟩ := h s s' hs hsettled
  obtain ⟨hr, he'⟩ := h' _ _ hq (x s).2 (y s').2 (hs.after hn he) fun h => by
    rw [he.scopes']
    exact (hsettled h).enterAll names
  refine ⟨hr, ?_, ?_, he'.diagnostics, he'.references⟩
  · exact he'.scopes.trans (by rw [he.scopes, enterAll_append])
  · exact he'.scopes'.trans (by rw [he.scopes', enterAll_append])

/-- A step that enters nothing comes first. -/
theorem before {f : α → Walk β} {f' : α' → Walk β'} (h : Shadows settled marks [] Q x y)
    (h' : ∀ a a', Q a a' → Shadows settled marks more R (f a) (f' a')) :
    Shadows settled marks more R (x >>= f) (y >>= f') :=
  bind (.nil marks) h h'

/-- A last step that only shapes the value. -/
theorem after {f : α → β} {f' : α' → β'} (h : Shadows settled marks names Q x y)
    (h' : ∀ a a', Q a a' → R (f a) (f' a')) :
    Shadows settled marks names R (x >>= fun a => Pure.pure (f a))
      (y >>= fun a => Pure.pure (f' a)) := by
  intro s s' hs hsettled
  obtain ⟨hq, he⟩ := h s s' hs hsettled
  exact ⟨h' _ _ hq, he⟩

/-- A step that depends on the open scopes. -/
theorem get {f : State → Walk α} {f' : State → Walk α'}
    (h : ∀ s s', Meets marks s s' → Shadows settled marks names Q (f s) (f' s')) :
    Shadows settled marks names Q (get >>= f) (get >>= f') :=
  fun s s' hs => h s s' hs s s' hs

theorem ite {c : Prop} [Decidable c] {x₁ x₂ : Walk α} {y₁ y₂ : Walk α'}
    (h₁ : Shadows settled marks names Q x₁ y₁) (h₂ : Shadows settled marks names Q x₂ y₂) :
    Shadows settled marks names Q (if c then x₁ else x₂) (if c then y₁ else y₂) := by
  split
  · exact h₁
  · exact h₂

/-- What is known of the values of both steps. -/
theorem imp {Q' : α → α' → Prop} (h : Shadows settled marks names Q x y)
    (h' : ∀ s s', Q (x s).1 (y s').1 → Q' (x s).1 (y s').1) :
    Shadows settled marks names Q' x y :=
  fun s s' hs hsettled => (h s s' hs hsettled).imp_left (h' s s')

theorem report (word : Name) (error : ScopeError) :
    Shadows settled marks [] (fun _ _ => True) (report word error)
      (Resolution.report word error) := fun _ _ hs _ =>
  ⟨trivial, rfl, rfl, congrArg (· ++ _) hs.diagnostics, hs.references⟩

theorem check {c : Prop} [Decidable c] (word : Name) (error : ScopeError)
    (h : Shadows settled marks names Q x y) :
    Shadows settled marks names Q (if c then Resolution.report word error >>= fun _ => x else x)
      (if c then Resolution.report word error >>= fun _ => y else y) :=
  ite ((report word error).before fun _ _ _ => h) h

/-! ### Scopes -/

/-- A step in scopes of its own. -/
theorem inScope (h : Shadows true (.shared :: marks) names Q x y) :
    Shadows settled marks [] Q (inScope ∅ x) (Resolution.inScope ∅ y) := by
  intro s s' hs _
  obtain ⟨hq, he⟩ := h { s with scopes := ∅ :: s.scopes } { s' with scopes := ∅ :: s'.scopes }
    ⟨.shared ∅ hs.scopes, rfl, hs.diagnostics, hs.references⟩ fun _ _ => rfl
  refine ⟨hq, ?_, ?_, he.diagnostics, he.references⟩
  · exact (congrArg List.tail he.scopes).trans (tail_enterAll ..)
  · exact (congrArg List.tail he.scopes').trans (tail_enterAll ..)

/-- The scope of a round is open in the first walk only. -/
theorem inRound (h : Shadows true (.extra :: marks) [] Q x y) :
    Shadows true marks [] Q (Resolution.inScope ∅ x) y := by
  intro s s' hs hsettled
  obtain ⟨hq, he⟩ := h { s with scopes := ∅ :: s.scopes } s'
    ⟨.extra hs.scopes hs.plain (hsettled rfl), rfl, hs.diagnostics, hs.references⟩ hsettled
  exact ⟨hq, congrArg List.tail he.scopes, he.scopes', he.diagnostics, he.references⟩

theorem inClass {derived : Bool} (h : Shadows true (ScopeMark.ofClass derived marks) [] Q x y) :
    Shadows settled marks [] Q (inClass derived x) (Resolution.inClass derived y) := by
  intro s s' hs _
  have hthis : Settled (Slots.single "this" true :: s'.scopes) :=
    have hempty : Settled (∅ :: s'.scopes) := fun _ => rfl
    hempty.enter "this"
  cases derived with
  | false =>
    obtain ⟨hq, he⟩ := h { s with scopes := Slots.single "this" true :: s.scopes }
      { s' with scopes := Slots.single "this" true :: s'.scopes }
      ⟨.shared _ hs.scopes, rfl, hs.diagnostics, hs.references⟩ fun _ => hthis
    exact ⟨hq, congrArg List.tail he.scopes, congrArg List.tail he.scopes', he.diagnostics,
      he.references⟩
  | true =>
    obtain ⟨hq, he⟩ := h
      { s with scopes := Slots.single "this" true :: Slots.single "super" true :: s.scopes }
      { s' with scopes := Slots.single "this" true :: Slots.single "super" true :: s'.scopes }
      ⟨.shared _ (.shared _ hs.scopes), rfl, hs.diagnostics, hs.references⟩ fun _ => hthis
    exact ⟨hq, congrArg (·.tail.tail) he.scopes, congrArg (·.tail.tail) he.scopes',
      he.diagnostics, he.references⟩

/-! ### Names -/

theorem declare {s s' : State} (hs : Meets marks s s') (hm : Shifts marks 0 0) {name : Name}
    (hname : name.Ordinary) : Meets marks (declare name s).2 (Resolution.declare name s').2 := by
  rw [declare_snd, declare_snd, ← hs.scopes.declaredInnermost hm]
  have hplain := (declaredInnermost_enter hname.2 false s.scopes).trans hs.plain
  split
  · exact ⟨hs.scopes.enter hm name.text false, hplain, congrArg (· ++ _) hs.diagnostics,
      hs.references⟩
  · exact ⟨hs.scopes.enter hm name.text false, hplain, hs.diagnostics, hs.references⟩

/-- A name that is declared before a step and made ready after it.  Something is being declared
in the meantime. -/
theorem around (hm : Shifts marks 0 0) {name : Name} (hname : name.Ordinary) {f : α → β}
    {f' : α' → β'} (h : Shadows false marks [] Q x y) (h' : ∀ a a', Q a a' → R (f a) (f' a')) :
    Shadows settled marks [name.text] R
      (Resolution.declare name >>= fun _ => x >>= fun a =>
        define name >>= fun _ => Pure.pure (f a))
      (Resolution.declare name >>= fun _ => y >>= fun a =>
        define name >>= fun _ => Pure.pure (f' a)) := by
  intro s s' hs _
  obtain ⟨hq, he⟩ := h _ _ (declare hs hm hname) nofun
  have hready : ∀ {s t : State}, t.scopes = (Resolution.declare name s).2.scopes →
      enter name.text true t.scopes = enterAll [name.text] s.scopes := fun ht => by
    rw [ht, Walks.declare_scopes]
    exact enter_enter ..
  exact ⟨h' _ _ hq, hready he.scopes, hready he.scopes', he.diagnostics, he.references⟩

theorem introduce (hm : Shifts marks 0 0) {name : Name} (hname : name.Ordinary) :
    Shadows settled marks [name.text] (fun _ _ => True) (introduce name)
      (Resolution.introduce name) :=
  around hm hname (pure (a := ()) (b := ()) trivial) fun _ _ => id

theorem introduceAll (hm : Shifts marks 0 0) : ∀ {names : List Name},
    (∀ name ∈ names, name.Ordinary) →
      Shadows settled marks (names.map Name.text) (fun _ _ => True) (introduceAll names)
        (Resolution.introduceAll names)
  | [], _ => pure trivial
  | name :: rest, h => by
    obtain ⟨hname, hrest⟩ := List.forall_mem_cons.mp h
    refine (introduce hm hname).bind ⟨fun _ => hm, ?_⟩ fun _ _ _ => introduceAll hm hrest
    exact fun hmem => hname.2 (List.mem_singleton.mp hmem).symm

theorem bindName (kind : ReferenceKind) (name : Name) {Q : Binding → Binding → Prop}
    (hq : ∀ {ss ss' : List StaticScope}, Stacks marks ss ss' →
      declaredInnermost "super" ss = false → Q (bindingOf name.text ss) (bindingOf name.text ss')) :
    Shadows settled marks [] Q (Resolution.bind kind name) (Resolution.bind kind name) := by
  intro s s' hs _
  have hb := hs.scopes.binding name.text
  rw [bind_fst, bind_fst, bind_snd, bind_snd]
  refine ⟨hq hs.scopes hs.plain, ?_⟩
  generalize bindingOf name.text s.scopes = b at hb
  generalize bindingOf name.text s'.scopes = b' at hb
  cases hb with
  | global => exact ⟨rfl, rfl, hs.diagnostics, hs.references⟩
  | «local» hd =>
    refine ⟨rfl, rfl, hs.diagnostics, ?_⟩
    rw [Array.size_push, Array.size_push, hs.references]

theorem bindShifted (kind : ReferenceKind) (name : Name) :
    Shadows settled marks [] (Binding.Shifted marks) (Resolution.bind kind name)
      (Resolution.bind kind name) :=
  bindName kind name fun h _ => h.binding name.text

theorem readVariable (name : Name) :
    Shadows settled marks [] (Reference.Shifted marks) (readVariable name)
      (Resolution.readVariable name) := by
  refine get fun s s' hs => ?_
  rw [hs.scopes.beingDeclared]
  exact check _ _ ((bindShifted .variable name).after fun _ _ => .mk name)

theorem writeVariable (name : Name) :
    Shadows settled marks [] (Reference.Shifted marks) (writeVariable name)
      (Resolution.writeVariable name) :=
  (bindShifted .assign name).after fun _ _ => .mk name

theorem readThis (context : Context) (line : Nat) :
    Shadows settled marks [] (Binding.Shifted marks) (readThis context line)
      (Resolution.readThis context line) := by
  unfold Resolution.readThis
  dsimp only
  split
  · exact (report ⟨"this", line⟩ _).before fun _ _ _ => pure .global
  · exact bindShifted _ ⟨"this", line⟩

theorem readSuper (context : Context) (line : Nat) :
    Shadows settled marks [] (Binding.ShiftedSuper marks) (readSuper context line)
      (Resolution.readSuper context line) := by
  have hb : Shadows settled marks [] (Binding.ShiftedSuper marks)
      (Resolution.bind .super ⟨"super", line⟩) (Resolution.bind .super ⟨"super", line⟩) :=
    bindName _ _ Stacks.shiftedSuper
  unfold Resolution.readSuper
  dsimp only
  split
  · exact (report ⟨"super", line⟩ _).before fun _ _ _ => hb
  · exact (report ⟨"super", line⟩ _).before fun _ _ _ => hb
  · exact hb

theorem checkReturn (context : Context) (line : Nat) (hasValue : Bool) :
    Shadows settled marks [] (fun _ _ => True) (checkReturn context line hasValue)
      (Resolution.checkReturn context line hasValue) := by
  unfold Resolution.checkReturn
  exact check ⟨"return", line⟩ _ (ite (report ⟨"return", line⟩ _) (pure trivial))

theorem resolveSuperclass (name : Name) : ∀ parent : Option (Reference Unit),
    Shadows settled marks [] (Option.Rel (Reference.Shifted marks)) (resolveSuperclass name parent)
      (Resolution.resolveSuperclass name parent)
  | none => pure .none
  | some parent => check _ _ ((readVariable parent.name).after fun _ _ => .some)

end Shadows

end Resolution

end ClassScript
