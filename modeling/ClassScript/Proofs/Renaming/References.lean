import ClassScript.Proofs.Renaming.Scopes

/-!
# References under another name

Each step of the walk over a respelled tree follows the step over the tree
(`Respelling.Apt.Follows`), if the names that it comes to are not the new one.  Here are
the steps that work on names and scopes.

The binding of a reference says whether it gets the new name, so a reference is respelled
after it is bound.  A class is compared with its superclass by name.  A class in the marked
scope has not the old name there, so no class comes to inherit from itself and none ceases
to (`follows_resolveSuperclass`).
-/

namespace ClassScript

open Resolution

namespace Respelling.Apt

variable {c : Respelling} {p : Program Unit} (hc : c.Apt p)

/-- A step over a tree and the step over the respelled tree end alike. -/
def Follows {α β : Type} (marks : List Bool) (R : α → β → Prop) (r : α × State)
    (r' : β × State) : Prop :=
  R r.1 r'.1 ∧ hc.Parallel marks r.2 r'.2

/-! ## Names -/

include hc in
/-- No respelling affects the words for an object. -/
theorem word_ne {word : String} (hword : word = "this" ∨ word = "super") :
    word ≠ c.new ∧ word ≠ c.old := by
  rcases hword with rfl | rfl
  · exact ⟨hc.new.1.symm, hc.old.1.symm⟩
  · exact ⟨hc.new.2.symm, hc.old.2.symm⟩

variable {hc} {marks : List Bool} {s s' : State} {position : Position}

theorem follows_bind (hs : hc.Parallel marks s s') (kind : ReferenceKind) {name : Name}
    (hname : name.text ≠ c.new) {respelled : Name}
    (hr : respelled = name.respell c ((bindingOf name.text s.scopes).marked marks)) :
    hc.Follows marks (fun r r' : Reference Binding => r' = r.rename (hc.maps marks))
      (⟨name, (bind kind name s).1⟩, (bind kind name s).2)
      (⟨respelled, (bind kind respelled s').1⟩, (bind kind respelled s').2) := by
  subst hr
  obtain ⟨hfst, hsnd⟩ := hs.bind kind hname
  refine ⟨?_, hsnd⟩
  show Reference.mk _ _ = Reference.rename _ ⟨name, (bind kind name s).1⟩
  rw [hfst, bind_fst, Reference.rename, hc.ofBinding_maps, hc.respell_eq_rename hname]

theorem follows_readVariable (hs : hc.Parallel marks s s') {name : Name}
    (hname : name.text ≠ c.new) {respelled : Name}
    (hr : respelled = name.respell c ((bindingOf name.text s.scopes).marked marks)) :
    hc.Follows marks (fun r r' : Reference Binding => r' = r.rename (hc.maps marks))
      (readVariable name s) (readVariable respelled s') := by
  have hbeing : beingDeclared respelled.text s'.scopes = beingDeclared name.text s.scopes := by
    rw [hr]
    exact hs.scopes.beingDeclared hname
  rw [readVariable_apply, readVariable_apply, hbeing]
  split
  · exact follows_bind (hs.report _ _ _) .variable hname hr
  · exact follows_bind hs .variable hname hr

theorem follows_readThis (hs : hc.Parallel marks s s') (context : Context) (line : Nat) :
    hc.Follows marks Eq (readThis context line s) (readThis context line s') := by
  obtain ⟨hnew, hold⟩ := hc.word_ne (.inl rfl)
  obtain ⟨hfst, hsnd⟩ := hs.bindWord .this line hnew hold
  unfold readThis
  cases context.enclosingClass with
  | none => exact ⟨rfl, hs.report _ _ _⟩
  | plain => exact ⟨hfst.symm, hsnd⟩
  | derived => exact ⟨hfst.symm, hsnd⟩

theorem follows_readSuper (hs : hc.Parallel marks s s') (context : Context) (line : Nat) :
    hc.Follows marks Eq (readSuper context line s) (readSuper context line s') := by
  have hword : ∀ {t t' : State}, hc.Parallel marks t t' → hc.Follows marks Eq
      (bind .super ⟨"super", line⟩ t) (bind .super ⟨"super", line⟩ t') := fun ht => by
    obtain ⟨hnew, hold⟩ := hc.word_ne (.inr rfl)
    obtain ⟨hfst, hsnd⟩ := ht.bindWord .super line hnew hold
    exact ⟨hfst.symm, hsnd⟩
  unfold readSuper
  cases context.enclosingClass with
  | none => exact hword (hs.report _ _ _)
  | plain => exact hword (hs.report _ _ _)
  | derived => exact hword hs

theorem Parallel.check (hs : hc.Parallel marks s s') (condition : Prop) [Decidable condition]
    (word : Name) (error : ScopeError) :
    hc.Parallel marks
      ((if condition then Resolution.report word error else pure () : Walk Unit) s).2
      ((if condition then Resolution.report word error else pure () : Walk Unit) s').2 := by
  split
  · exact hs.report _ _ _
  · exact hs

theorem Parallel.checkReturn (hs : hc.Parallel marks s s') (context : Context) (line : Nat)
    (hasValue : Bool) : hc.Parallel marks (checkReturn context line hasValue s).2
      (Resolution.checkReturn context line hasValue s').2 := by
  unfold Resolution.checkReturn
  dsimp only
  split
  · exact (hs.report _ _ _).check _ _ _
  · exact hs.check _ _ _

/-! ## Declared names -/

theorem ofDistance_zero :
    NameMap.ofDistance (hc.maps marks) 0 = hc.nameMap (marks.headD false) := by
  rw [hc.ofDistance_maps]
  cases marks <;> rfl

/-- A name that a function or a class keeps. -/
theorem rename_kept {name : Name} (hname : name.text ≠ c.new)
    (hkept : marks.headD false = true → name.text ≠ c.old) :
    name.rename (hc.nameMap (marks.headD false)) = name := by
  rw [← hc.respell_eq_rename hname, Name.respell, text, if_neg fun h => hkept h.1 h.2]

theorem ofDistance_kept {name : Name} (hname : name.text ≠ c.new)
    (hkept : marks.headD false = true → name.text ≠ c.old) :
    NameMap.ofDistance (hc.maps marks) 0 name.text = name.text := by
  rw [ofDistance_zero]
  exact congrArg Name.text (rename_kept hname hkept)

/-- A name that is kept is entered as before.  A reference to it gets the mark of its scope. -/
theorem Parallel.introduceKept (hs : hc.Parallel marks s s') {name : Name}
    (hname : name.text ≠ c.new) (hkept : marks.headD false = true → name.text ≠ c.old) :
    hc.Parallel marks (Resolution.introduce name s).2 (Resolution.introduce name s').2 ∧
      (bindingOf name.text (Resolution.introduce name s).2.scopes).marked marks =
        marks.headD false := by
  have ht := hs.introduce hname
  rw [rename_kept hname hkept] at ht
  refine ⟨ht, ?_⟩
  rw [(Walks.introduce name s).scopes]
  have hscopes := hs.scopes
  generalize s.scopes = scopes, s'.scopes = scopes' at hscopes
  cases hscopes with
  | nil => rfl
  | @cons m marks scope _ scopes _ _ _ _ =>
    show (bindingOf name.text (scope.set name.text true :: scopes)).marked (m :: marks) = m
    rw [bindingOf_cons, if_pos]
    · rfl
    · rw [Slots.contains, Slots.get?_set_self]
      rfl

/-- A class does not inherit from itself just because of the new name. -/
theorem follows_resolveSuperclass (hs : hc.Parallel marks s s') {name : Name}
    (hname : name.text ≠ c.new)
    (hkept : (bindingOf name.text s.scopes).marked marks = true → name.text ≠ c.old) :
    ∀ {superclass : Option (Reference Unit)}, (∀ r ∈ superclass, r.name.text ≠ c.new) →
      hc.Follows marks (fun r r' => r' = r.map (Reference.rename (hc.maps marks)))
        (resolveSuperclass name superclass s)
        (resolveSuperclass name
          ((resolveSuperclass name superclass s).1.map (Reference.respell c marks)) s')
  | none, _ => ⟨rfl, hs⟩
  | some parent, hparent => by
    let r : Reference Binding := ⟨parent.name, bindingOf parent.name.text s.scopes⟩
    have hsame : (r.respell c marks).name.text = name.text ↔ parent.name.text = name.text := by
      show c.text _ parent.name.text = name.text ↔ _
      rw [text]
      split
      · rename_i hmarked
        refine iff_of_false (Ne.symm hname) fun he => ?_
        have hmark : (bindingOf parent.name.text s.scopes).marked marks = true := hmarked.1
        rw [he] at hmark
        exact hkept hmark (he ▸ hmarked.2)
      · rfl
    have hread : ∀ {t t' : State}, t.scopes = s.scopes → hc.Parallel marks t t' →
        hc.Follows marks (fun r r' => r' = r.map (Reference.rename (hc.maps marks)))
          (some (readVariable parent.name t).1, (readVariable parent.name t).2)
          (some (readVariable (r.respell c marks).name t').1,
            (readVariable (r.respell c marks).name t').2) := by
      intro t t' hscopes ht
      obtain ⟨hfst, hsnd⟩ := follows_readVariable ht (hparent parent rfl) (by rw [hscopes])
      exact ⟨congrArg some hfst, hsnd⟩
    rw [resolveSuperclass_fst, Option.map_some, resolveSuperclass_apply, resolveSuperclass_apply]
    simp only [r, hsame]
    split
    · exact hread rfl (hs.report _ _ _)
    · exact hread rfl hs

/-! ## Scopes -/

/-- The scope of a function is opened and its parameters are declared. -/
theorem Parallel.openedFunction (hs : hc.Parallel marks s s') (m : Bool) {parameters : List Name}
    (hnames : ∀ q ∈ parameters, q.text ≠ c.new) :
    hc.Parallel (m :: marks)
      (Resolution.introduceAll parameters { s with scopes := ∅ :: s.scopes }).2
      (Resolution.introduceAll (parameters.map (Name.respell c m))
        { s' with scopes := ∅ :: s'.scopes }).2 := by
  rw [hc.map_respell hnames]
  exact (hs.opened m).introduceAll hnames

theorem maps_classMarks (derived : Bool) (marks : List Bool) :
    hc.maps (classMarks derived marks) = classMaps derived (hc.maps marks) := by
  cases derived <;> rfl

/-- The scopes of a class are opened. -/
theorem Parallel.openedClass (hs : hc.Parallel marks s s') (derived : Bool) :
    hc.Parallel (classMarks derived marks) (Site.classState derived s)
      (Site.classState derived s') := by
  have hthis := (hc.word_ne (.inl rfl)).1
  have hsuper := (hc.word_ne (.inr rfl)).1
  cases derived with
  | false => exact hs.openedWith hthis
  | true => exact (hs.openedWith hsuper).openedWith hthis

theorem follows_inClass {α β : Type} {R : α → β → Prop} {step : Walk α} {step' : Walk β}
    {derived : Bool} (h : hc.Follows (classMarks derived marks) R
      (step (Site.classState derived s)) (step' (Site.classState derived s'))) :
    hc.Follows marks R (inClass derived step s) (inClass derived step' s') := by
  obtain ⟨hfst, hsnd⟩ := h
  cases derived with
  | false => exact ⟨hfst, hsnd.closed⟩
  | true => exact ⟨hfst, hsnd.closed.closed⟩

end Respelling.Apt

end ClassScript
