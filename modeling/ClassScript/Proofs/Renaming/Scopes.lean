import ClassScript.Proofs.Renaming.Basic
import ClassScript.Proofs.Renaming.Relation
import ClassScript.Proofs.Scope.Reference
import Mathlib.Logic.Equiv.Basic

/-!
# Scopes under another name

A variable gets a new name that occurs nowhere in its program.  Then the walk over the
respelled program has the same scopes open as the walk over the program, with the two names
exchanged in the marked one (`Respelling.Apt.Matches`).  So every name that is looked up is
found as far out as before (`Matches.bindingOf`): the new name is held by the marked scope
only, and the old name by the same scopes as before but for that one.
-/

namespace ClassScript

open Resolution

/-- A respelling of a legal program to a name that does not occur in it.  In the scope of the
variable no function and no class has the old name. -/
structure Respelling.Apt (c : Respelling) (p : Program Unit) : Prop where
  legal : legalStmts p
  old : c.old ≠ "this" ∧ c.old ≠ "super"
  new : c.new ≠ "this" ∧ c.new ≠ "super"
  fresh : ¬ OccursIn p c.new
  kept : ∀ outer spot parameters body, At (topSpots p) c.scope outer spot →
    spot.opens = some (parameters, body) → ∀ s ∈ body, ∀ name, s.declared = some name →
      (∀ name initializer, s ≠ .var name initializer) → name.text ≠ c.old

theorem Respelling.text_of_ne {c : Respelling} {x : String} (hx : x ≠ c.old) (marked : Bool) :
    c.text marked x = x :=
  if_neg fun h => hx h.2

/-! ## Bindings -/

/-- The same place, seen from one scope further in. -/
def Binding.outward : Binding → Binding
  | .global => .global
  | .local distance => .local (distance + 1)

theorem bindingOf_cons (x : String) (scope : StaticScope) (scopes : List StaticScope) :
    bindingOf x (scope :: scopes) =
      if scope.contains x then .local 0 else (bindingOf x scopes).outward := by
  unfold bindingOf
  rw [List.findIdx?_cons]
  by_cases hx : scope.contains x = true
  · rw [if_pos hx, if_pos hx]
  · rw [if_neg hx, if_neg hx]
    cases scopes.findIdx? (·.contains x) <;> rfl

theorem Binding.marked_outward (b : Binding) (m : Bool) (marks : List Bool) :
    b.outward.marked (m :: marks) = b.marked marks := by
  cases b <;> rfl

theorem bind_snd (kind : ReferenceKind) (name : Name) (s : State) :
    (bind kind name s).2 =
      match bindingOf name.text s.scopes with
      | .global => s
      | .local distance =>
        { s with references := s.references.push ⟨kind, name, distance⟩ } := by
  unfold Resolution.bind
  dsimp only [Bind.bind, StateT.bind, get, getThe, MonadStateOf.get, StateT.get, Pure.pure]
  cases bindingOf name.text s.scopes <;> rfl

/-- What is recorded of a reference besides its name. -/
def LocalReference.place (r : LocalReference) : ReferenceKind × Nat × Nat :=
  (r.kind, r.name.line, r.distance)

namespace Respelling.Apt

variable {c : Respelling} {p : Program Unit} (hc : c.Apt p)

/-! ## The change of the names of a scope -/

/-- The names are exchanged in a marked scope. -/
def nameMap : Bool → NameMap
  | false => .keep
  | true =>
    ⟨Equiv.swap c.old c.new, (Equiv.swap c.old c.new).injective,
      Equiv.swap_apply_of_ne_of_ne hc.old.1.symm hc.new.1.symm,
      Equiv.swap_apply_of_ne_of_ne hc.old.2.symm hc.new.2.symm⟩

/-- The changes of the names of the open scopes. -/
def maps (marks : List Bool) : List NameMap := marks.map hc.nameMap

theorem ofDistance_maps (marks : List Bool) (distance : Nat) :
    NameMap.ofDistance (hc.maps marks) distance = hc.nameMap (marks.getD distance false) := by
  simp only [maps, NameMap.ofDistance, List.getD_eq_getElem?_getD, List.getElem?_map]
  cases marks[distance]? <;> rfl

theorem ofBinding_maps (marks : List Bool) (binding : Binding) :
    NameMap.ofBinding (hc.maps marks) binding = hc.nameMap (binding.marked marks) := by
  cases binding with
  | global => rfl
  | «local» distance => exact hc.ofDistance_maps marks distance

theorem nameMap_apply {x : String} (hx : x ≠ c.new) (marked : Bool) :
    hc.nameMap marked x = c.text marked x := by
  cases marked with
  | false => simp [nameMap, text]
  | true =>
    show Equiv.swap c.old c.new x = _
    by_cases ho : x = c.old
    · subst ho
      simp [text]
    · simp [text, ho, Equiv.swap_apply_of_ne_of_ne ho hx]

theorem respell_eq_rename {name : Name} (hname : name.text ≠ c.new) (marked : Bool) :
    name.respell c marked = name.rename (hc.nameMap marked) := by
  rw [Name.rename, hc.nameMap_apply hname]
  rfl

theorem map_respell {names : List Name} (hnames : ∀ q ∈ names, q.text ≠ c.new) (marked : Bool) :
    names.map (Name.respell c marked) = names.map (Name.rename (hc.nameMap marked)) :=
  List.map_congr_left fun q hq => hc.respell_eq_rename (hnames q hq) marked

/-- A name that a scope does not hold, with either spelling, is not held under any. -/
theorem exists_nameMap_eq {x : String} (hx : x ≠ c.new) (m marked : Bool) {P : String → Prop}
    (hP : P x) (hnew : P c.new) : ∃ y, hc.nameMap m y = c.text marked x ∧ P y := by
  have htext : c.text marked x = x ∨ x = c.old ∧ c.text marked x = c.new := by
    unfold text
    split
    · exact .inr ⟨‹_ ∧ _›.2, rfl⟩
    · exact .inl rfl
  cases m with
  | false =>
    refine ⟨c.text marked x, rfl, ?_⟩
    rcases htext with h | ⟨-, h⟩ <;> rw [h] <;> assumption
  | true =>
    rcases htext with h | ⟨rfl, h⟩ <;> rw [h]
    · by_cases ho : x = c.old
      · exact ⟨c.new, ho ▸ Equiv.swap_apply_right .., hnew⟩
      · exact ⟨x, Equiv.swap_apply_of_ne_of_ne ho hx, hP⟩
    · exact ⟨c.old, Equiv.swap_apply_left .., hP⟩

/-! ## Open scopes -/

/-- The scopes that are open in both walks. -/
inductive Matches : List Bool → List StaticScope → List StaticScope → Prop where
  | nil : Matches [] [] []
  | cons {m : Bool} {marks : List Bool} {scope scope' : StaticScope}
      {scopes scopes' : List StaticScope} : (∀ x, scope'.get? (hc.nameMap m x) = scope.get? x) →
      scope.get? c.new = none → Matches marks scopes scopes' →
      Matches (m :: marks) (scope :: scopes) (scope' :: scopes')

namespace Matches

variable {hc} {marks : List Bool} {scopes scopes' : List StaticScope}

/-- A name is found as far out as before. -/
theorem bindingOf (h : hc.Matches marks scopes scopes') {x : String} (hx : x ≠ c.new) :
    bindingOf (c.text ((bindingOf x scopes).marked marks) x) scopes' =
      Resolution.bindingOf x scopes := by
  induction h with
  | nil => rfl
  | @cons m marks scope scope' scopes scopes' hget hnew _ ih =>
    have hcontains : ∀ y, scope'.contains (hc.nameMap m y) = scope.contains y := fun y =>
      congrArg Option.isSome (hget y)
    rw [bindingOf_cons x scope scopes]
    split
    · rename_i hholds
      rw [show (Binding.local 0).marked (m :: marks) = m from rfl, ← hc.nameMap_apply hx,
        bindingOf_cons, hcontains, if_pos hholds]
    · rename_i hholds
      have hfree : scope.contains x = false := by simpa using hholds
      have hfree' : scope.contains c.new = false := by rw [Slots.contains, hnew]; rfl
      rw [Binding.marked_outward, bindingOf_cons, ih]
      obtain ⟨y, hy, hfree⟩ := hc.exists_nameMap_eq hx m
        ((Resolution.bindingOf x scopes).marked marks)
        (P := fun y => scope.contains y = false) hfree hfree'
      rw [← hy, hcontains, hfree]
      rfl

theorem enter (h : hc.Matches marks scopes scopes') {x : String} (hx : x ≠ c.new) (ready : Bool) :
    hc.Matches marks (enter x ready scopes)
      (Resolution.enter (hc.nameMap (marks.headD false) x) ready scopes') := by
  cases h with
  | nil => exact .nil
  | @cons m marks scope scope' scopes scopes' hget hnew hrest =>
    refine .cons (fun y => ?_) ?_ hrest
    · show (scope'.set (hc.nameMap m x) ready).get? (hc.nameMap m y) = _
      by_cases hxy : x = y
      · subst hxy
        rw [Slots.get?_set_self, Slots.get?_set_self]
      · rw [Slots.get?_set_of_ne _ _ hxy,
          Slots.get?_set_of_ne _ _ fun he => hxy ((hc.nameMap m).injective he), hget]
    · rw [Slots.get?_set_of_ne _ _ hx, hnew]

theorem declaredInnermost (h : hc.Matches marks scopes scopes') (x : String) :
    declaredInnermost (hc.nameMap (marks.headD false) x) scopes' =
      Resolution.declaredInnermost x scopes := by
  cases h with
  | nil => rfl
  | cons hget _ _ => exact congrArg Option.isSome (hget x)

/-- A name is in the middle of its declaration just if it was. -/
theorem beingDeclared (h : hc.Matches marks scopes scopes') {x : String} (hx : x ≠ c.new) :
    beingDeclared (c.text ((Resolution.bindingOf x scopes).marked marks) x) scopes' =
      Resolution.beingDeclared x scopes := by
  cases h with
  | nil => rfl
  | @cons m marks scope scope' scopes scopes' hget hnew _ =>
    rw [bindingOf_cons]
    split
    · rw [show (Binding.local 0).marked (m :: marks) = m from rfl, ← hc.nameMap_apply hx]
      simp only [Resolution.beingDeclared, hget]
    · rename_i hholds
      have hfree : scope.get? x = none := by simpa [Slots.contains] using hholds
      obtain ⟨y, hy, hfree'⟩ := hc.exists_nameMap_eq hx m
        ((Resolution.bindingOf x scopes).outward.marked (m :: marks))
        (P := fun y => scope.get? y = none) hfree hnew
      rw [← hy]
      simp only [Resolution.beingDeclared, hget, hfree, hfree']

end Matches

/-! ## States of the walk -/

/-- The two walks have gone equally far. -/
structure Parallel (marks : List Bool) (s s' : State) : Prop where
  scopes : hc.Matches marks s.scopes s'.scopes
  accepted : s'.diagnostics = [] ↔ s.diagnostics = []
  references : s'.references.map LocalReference.place = s.references.map LocalReference.place

namespace Parallel

variable {hc} {marks : List Bool} {s s' : State}

theorem report (h : hc.Parallel marks s s') (word word' : Name) (error : ScopeError) :
    hc.Parallel marks (report word error s).2 (Resolution.report word' error s').2 :=
  ⟨h.scopes, iff_of_false (List.append_ne_nil_of_right_ne_nil _ (List.cons_ne_nil _ _))
    (List.append_ne_nil_of_right_ne_nil _ (List.cons_ne_nil _ _)), h.references⟩

theorem opened (h : hc.Parallel marks s s') (m : Bool) :
    hc.Parallel (m :: marks) { s with scopes := ∅ :: s.scopes }
      { s' with scopes := ∅ :: s'.scopes } :=
  ⟨.cons (fun _ => rfl) rfl h.scopes, h.accepted, h.references⟩

theorem openedWith (h : hc.Parallel marks s s') {word : String} (hword : word ≠ c.new) :
    hc.Parallel (false :: marks) { s with scopes := Slots.single word true :: s.scopes }
      { s' with scopes := Slots.single word true :: s'.scopes } :=
  ⟨.cons (fun _ => rfl) (if_neg hword) h.scopes, h.accepted, h.references⟩

theorem closed {m : Bool} (h : hc.Parallel (m :: marks) s s') :
    hc.Parallel marks { s with scopes := s.scopes.tail } { s' with scopes := s'.scopes.tail } := by
  obtain ⟨scopes, diagnostics, references⟩ := s
  obtain ⟨scopes', diagnostics', references'⟩ := s'
  have hscopes := h.scopes
  cases hscopes with
  | cons _ _ hrest => exact ⟨hrest, h.accepted, h.references⟩

theorem declare (h : hc.Parallel marks s s') {name : Name} (hname : name.text ≠ c.new) :
    hc.Parallel marks (declare name s).2
      (Resolution.declare (name.rename (hc.nameMap (marks.headD false))) s').2 := by
  have hinner := h.scopes.declaredInnermost name.text
  have henter : ∀ {t t' : State}, hc.Parallel marks t t' →
      hc.Parallel marks { t with scopes := enter name.text false t.scopes }
        { t' with scopes := enter (hc.nameMap (marks.headD false) name.text) false t'.scopes } :=
    fun ht => ⟨ht.scopes.enter hname false, ht.accepted, ht.references⟩
  show hc.Parallel marks
    ((if Resolution.declaredInnermost name.text s.scopes then
      Resolution.report name .alreadyDeclared >>= fun _ =>
        modify fun s => { s with scopes := enter name.text false s.scopes }
      else modify fun s => { s with scopes := enter name.text false s.scopes } : Walk Unit) s).2
    ((if Resolution.declaredInnermost (hc.nameMap (marks.headD false) name.text) s'.scopes then
      Resolution.report (name.rename (hc.nameMap (marks.headD false))) .alreadyDeclared >>= fun _ =>
        modify fun s =>
          { s with scopes := enter (hc.nameMap (marks.headD false) name.text) false s.scopes }
      else modify fun s =>
        { s with scopes := enter (hc.nameMap (marks.headD false) name.text) false s.scopes } :
          Walk Unit) s').2
  rw [hinner]
  split
  · exact henter (h.report _ _ _)
  · exact henter h

theorem define (h : hc.Parallel marks s s') {name : Name} (hname : name.text ≠ c.new) :
    hc.Parallel marks (define name s).2
      (Resolution.define (name.rename (hc.nameMap (marks.headD false))) s').2 :=
  ⟨h.scopes.enter hname true, h.accepted, h.references⟩

theorem introduce (h : hc.Parallel marks s s') {name : Name} (hname : name.text ≠ c.new) :
    hc.Parallel marks (introduce name s).2
      (Resolution.introduce (name.rename (hc.nameMap (marks.headD false))) s').2 :=
  (h.declare hname).define hname

theorem introduceAll : ∀ {names : List Name} {s s' : State}, hc.Parallel marks s s' →
    (∀ q ∈ names, q.text ≠ c.new) →
      hc.Parallel marks (introduceAll names s).2
        (Resolution.introduceAll (names.map (Name.rename (hc.nameMap (marks.headD false)))) s').2
  | [], _, _, h, _ => h
  | name :: _, _, _, h, hnames => by
    have hrest := introduceAll (h.introduce (hnames name (List.mem_cons_self ..)))
      fun q hq => hnames q (List.mem_cons_of_mem _ hq)
    exact hrest

/-- A reference is bound as before, and recorded as before but for its name. -/
theorem bind (h : hc.Parallel marks s s') (kind : ReferenceKind) {name : Name}
    (hname : name.text ≠ c.new) :
    (bind kind (name.respell c ((bindingOf name.text s.scopes).marked marks)) s').1 =
        bindingOf name.text s.scopes ∧
      hc.Parallel marks (Resolution.bind kind name s).2
        (Resolution.bind kind
          (name.respell c ((bindingOf name.text s.scopes).marked marks)) s').2 := by
  have hb := h.scopes.bindingOf hname
  refine ⟨(bind_fst ..).trans hb, ?_⟩
  rw [bind_snd, bind_snd, show bindingOf (name.respell c
    ((bindingOf name.text s.scopes).marked marks)).text s'.scopes = _ from hb]
  cases bindingOf name.text s.scopes with
  | global => exact h
  | «local» distance =>
    refine ⟨h.scopes, h.accepted, ?_⟩
    rw [Array.map_push, Array.map_push, h.references]
    rfl

/-- A word that no respelling affects is bound as before. -/
theorem bindWord (h : hc.Parallel marks s s') (kind : ReferenceKind) {word : String} (line : Nat)
    (hnew : word ≠ c.new) (hold : word ≠ c.old) :
    (Resolution.bind kind ⟨word, line⟩ s').1 = (Resolution.bind kind ⟨word, line⟩ s).1 ∧
      hc.Parallel marks (Resolution.bind kind ⟨word, line⟩ s).2
        (Resolution.bind kind ⟨word, line⟩ s').2 := by
  have hb := @bind c p hc marks s s' h kind ⟨word, line⟩ hnew
  have hword : ∀ marked, Name.respell c marked ⟨word, line⟩ = ⟨word, line⟩ := fun marked => by
    rw [Name.respell, text_of_ne hold]
  rw [hword] at hb
  rwa [bind_fst kind ⟨word, line⟩ s]

end Parallel

end Respelling.Apt

end ClassScript
