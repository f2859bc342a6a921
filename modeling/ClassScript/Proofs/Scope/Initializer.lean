import ClassScript.Proofs.Scope.Reference

/-!
# Initializers

A name that an open scope holds without being ready for use is that of a variable
whose initializer the site lies in (`Within.pending`).  Resolution accepts that such
a name is read only inside of a function without a name that the initializer makes
(`Within.inOwnInitializer`).
-/

namespace ClassScript

open Resolution

/-- The scope at the distance `i` holds the name, which is not ready for use. -/
def Pending (x : String) (scopes : List StaticScope) (i : Nat) : Prop :=
  ∃ scope, scopes[i]? = some scope ∧ scope.get? x = some false

/-- The initializer of the variable that a site declares, and the variable. -/
def Site.initializer? (w : Site) : Option (Name × Site) :=
  match w.node with
  | .stmt (.var name (some value)) => some (name, w.on (.expr value) (declare name w.state).2)
  | _ => none

/-- The declaration of a variable of the scope that a site has open at the distance
`i`, and the site of the initializer. -/
structure Declares (p : Program Unit) (x : String) (i : Nat) (w declaration value : Site) :
    Prop where
  within : Within p declaration
  initializer : ∃ name, declaration.initializer? = some (name, value) ∧ name.text = x
  isLocal : declaration.scopes ≠ []
  depth : declaration.scopes.length + i = w.scopes.length

/-- The site lies inside of a function that an expression of the given site makes. -/
def InAnonymous (w₀ w : Site) : Prop :=
  ∃ maker f, Inside w₀ maker ∧ (∃ e, maker.node = .expr e) ∧ maker.function? = some f ∧
    Inside f.entry w

namespace Pending

variable {x y : String} {scopes : List StaticScope} {i : Nat}

theorem not_nil : ¬ Pending x [] i := by
  rintro ⟨scope, hs, -⟩
  cases hs

theorem of_enter {ready : Bool} (hp : Pending x (enter y ready scopes) i) :
    (i = 0 ∧ y = x ∧ ready = false ∧ scopes ≠ []) ∨ Pending x scopes i := by
  obtain ⟨scope, hs, hx⟩ := hp
  cases scopes with
  | nil => cases hs
  | cons first outer =>
    cases i with
    | succ i => exact .inr ⟨scope, hs, hx⟩
    | zero =>
      obtain rfl : first.set y ready = scope := Option.some.inj hs
      by_cases hne : y = x
      · subst hne
        rw [Slots.get?_set_self] at hx
        exact .inl ⟨rfl, rfl, Option.some.inj hx, List.cons_ne_nil _ _⟩
      · rw [Slots.get?_set_of_ne _ _ hne] at hx
        exact .inr ⟨first, rfl, hx⟩

theorem of_enter_ready (hp : Pending x (enter y true scopes) i) : Pending x scopes i :=
  hp.of_enter.resolve_left fun h => nomatch h.2.2.1

theorem of_enterAll {xs : List String} (hp : Pending x (enterAll xs scopes) i) :
    Pending x scopes i := by
  induction xs generalizing scopes with
  | nil => exact hp
  | cons y rest ih => exact (ih hp).of_enter_ready

/-- A scope with names that are all ready for use is of no account. -/
theorem of_push {scope : StaticScope} (hscope : ∀ x, scope.get? x ≠ some false)
    (hp : Pending x (scope :: scopes) i) : ∃ j, i = j + 1 ∧ Pending x scopes j := by
  obtain ⟨scope', hs, hx⟩ := hp
  cases i with
  | zero =>
    obtain rfl : scope = scope' := Option.some.inj hs
    exact absurd hx (hscope x)
  | succ i => exact ⟨i, rfl, scope', hs, hx⟩

theorem of_push_empty (hp : Pending x (∅ :: scopes) i) : ∃ j, i = j + 1 ∧ Pending x scopes j := by
  have hempty : ∀ x, (∅ : StaticScope).get? x ≠ some false := fun _ hx => nomatch hx
  exact hp.of_push hempty

theorem of_push_single (hp : Pending x (Slots.single y true :: scopes) i) :
    ∃ j, i = j + 1 ∧ Pending x scopes j := by
  refine hp.of_push fun z hz => ?_
  have hc : (Slots.single y true).contains z = true := by simp [Slots.contains, hz]
  obtain rfl := (Slots.contains_single ..).mp hc
  simp [Slots.single, Slots.get?, Slots.find?] at hz

end Pending

/-! ## Scopes of functions -/

theorem FunctionSite.scopes_entry (f : FunctionSite) :
    f.entry.scopes = enterAll (f.parameters.map Name.text) (∅ :: f.state.scopes) :=
  (Walks.introduceAll f.parameters _).scopes

/-- In the body of a function, a name that is not ready comes from further out. -/
theorem Pending.of_entry {f : FunctionSite} {x : String} {i : Nat}
    (hp : Pending x f.entry.scopes i) : ∃ j, i = j + 1 ∧ Pending x f.state.scopes j := by
  rw [f.scopes_entry] at hp
  exact hp.of_enterAll.of_push_empty

theorem FunctionSite.length_entry (f : FunctionSite) :
    f.entry.scopes.length = f.state.scopes.length + 1 := by
  rw [f.scopes_entry, length_enterAll]
  rfl

theorem Site.length_of_function? {w : Site} {f : FunctionSite} (hf : w.function? = some f) :
    f.state.scopes.length = w.scopes.length ∧
      ∀ x i, Pending x f.state.scopes i → Pending x w.scopes i := by
  obtain ⟨context, names, node, state⟩ := w
  unfold Site.function? at hf
  split at hf
  · cases hf
    exact ⟨rfl, fun _ _ hp => hp⟩
  · rename_i name parameters body hnode
    obtain rfl : node = .stmt (.functionDecl (.mk name parameters body)) := hnode
    cases hf
    have hi : (introduce name state).2.scopes = enter name.text true state.scopes :=
      (Walks.introduce name state).scopes
    dsimp only
    rw [hi]
    exact ⟨length_enter .., fun _ _ hp => hp.of_enter_ready⟩
  · cases hf

/-- The scopes of a class body come in front of those around the class. -/
theorem Site.Sound.pending_of_method {w : Site} {f : FunctionSite} (hs : w.Sound)
    (hf : f ∈ w.methods) {x : String} {i : Nat} (hp : Pending x f.state.scopes i) :
    ∃ j, Pending x w.scopes j ∧ f.state.scopes.length + j = w.scopes.length + i := by
  obtain ⟨name, parent, methods, hn⟩ := Site.classDecl_of_mem_methods hf
  have hl := hs.legal
  rw [hn] at hl
  have hscopes := Site.scopes_of_mem_methods hl.2 hn hf
  rw [hscopes] at hp ⊢
  obtain ⟨j, rfl, hj⟩ := hp.of_push_single
  cases hsome : parent.isSome with
  | false =>
    rw [hsome] at hj
    refine ⟨j, hj.of_enter_ready, ?_⟩
    simp only [List.length_cons, length_enter, Bool.false_eq_true, if_false]
    omega
  | true =>
    rw [hsome, if_pos rfl] at hj
    obtain ⟨k, rfl, hk⟩ := hj.of_push_single
    refine ⟨k, hk.of_enter_ready, ?_⟩
    simp only [List.length_cons, length_enter, if_true]
    omega

/-! ## Sites in initializers -/

theorem Site.isExpr_of_mem_parts {w w' : Site} (hn : w.node.IsExpr) (hw : w' ∈ w.parts) :
    w'.node.IsExpr := by
  refine Node.isExpr_of_mem_parts hn w'.node ?_
  rw [← w.map_node_parts]
  exact List.mem_map_of_mem hw

/-- The site lies in the initializer, either directly, with no scope in between, or
inside of a function that is made there. -/
def InInitializer (value : Site) (i : Nat) (w : Site) : Prop :=
  (i = 0 ∧ Inside value w ∧ w.node.IsExpr) ∨ InAnonymous value w

theorem InAnonymous.extend {value w w' : Site} (hi : InAnonymous value w)
    (hw : ∀ {w₀ : Site}, Inside w₀ w → Inside w₀ w') : InAnonymous value w' := by
  obtain ⟨maker, f, hm, he, hf, hin⟩ := hi
  exact ⟨maker, f, hm, he, hf, hw hin⟩

/-- A statement lies in an initializer only inside of a function. -/
theorem InInitializer.anonymous {value w : Site} {i : Nat} (hi : InInitializer value i w)
    (hn : ¬ w.node.IsExpr) : InAnonymous value w :=
  hi.resolve_left fun h => hn h.2.2

/-- Into a function, whether it has a name or not. -/
theorem InInitializer.function {value w : Site} {i : Nat} {f : FunctionSite}
    (hi : InInitializer value i w) (hf : w.function? = some f) : InAnonymous value f.entry := by
  rcases hi with ⟨-, hin, hn⟩ | ha
  · refine ⟨w, f, hin, ?_, hf, .refl⟩
    obtain ⟨context, names, node, state⟩ := w
    cases node with
    | expr e => exact ⟨e, rfl⟩
    | exprs es => cases hf
    | _ => cases hn
  · exact ha.extend fun hin => hin.function hf

theorem Declares.shift {p : Program Unit} {x : String} {i j : Nat} {w w' declaration value : Site}
    (hd : Declares p x i w declaration value)
    (hlength : w'.scopes.length + i = w.scopes.length + j) :
    Declares p x j w' declaration value := by
  have hdepth := hd.depth
  exact ⟨hd.within, hd.initializer, hd.isLocal, by omega⟩

section

variable {p : Program Unit} {w : Site} {x : String} {i : Nat}

/-- The step into a part. -/
theorem Within.pending_part {w' : Site} (hw : Within p w) (hs : w.Sound) (hpart : w' ∈ w.parts)
    (ih : ∀ i, Pending x w.scopes i →
      ∃ declaration value, Declares p x i w declaration value ∧ InInitializer value i w)
    (hp : Pending x w'.scopes i) :
    ∃ declaration value, Declares p x i w' declaration value ∧ InInitializer value i w' := by
  -- What lies in an initializer still does so further in, as long as no scope is opened.
  have hstep : ∀ i, Pending x w.scopes i → w'.scopes.length = w.scopes.length →
      ∃ declaration value, Declares p x i w' declaration value ∧ InInitializer value i w' := by
    intro i hp hlength
    obtain ⟨declaration, value, hd, hi⟩ := ih i hp
    refine ⟨declaration, value, hd.shift (by omega), ?_⟩
    rcases hi with ⟨rfl, hin, hn⟩ | ha
    · exact .inl ⟨rfl, hin.part hpart, Site.isExpr_of_mem_parts hn hpart⟩
    · exact .inr (ha.extend fun hin => hin.part hpart)
  cases (Site.partOf_of_mem_parts hs.legal hpart).2 with
  | same hscopes _ _ =>
    rw [hscopes] at hp
    exact hstep i hp (by rw [hscopes])
  | first s rest _ _ hscopes =>
    rw [hscopes] at hp
    exact hstep i hp (by rw [hscopes])
  | rest s rest _ _ hscopes =>
    rw [hscopes] at hp
    exact hstep i hp.of_enterAll (by rw [hscopes, length_enterAll])
  | initializer name value hnode hnode' hscopes =>
    have hlength : w'.scopes.length = w.scopes.length := by rw [hscopes, length_enter]
    rw [hscopes] at hp
    rcases hp.of_enter with ⟨rfl, rfl, -, hne⟩ | hp
    · have hi : w.initializer? = some (name, w') := by
        obtain ⟨context, names, node, state⟩ := w
        obtain rfl : node = .stmt (.var name (some value)) := hnode
        obtain rfl := List.mem_singleton.mp hpart
        rfl
      have hexpr : w'.node.IsExpr := by
        rw [hnode']
        trivial
      exact ⟨w, w', ⟨hw, ⟨name, hi, rfl⟩, hne, hlength.symm⟩, .inl ⟨rfl, .refl, hexpr⟩⟩
    · exact hstep i hp hlength

variable (hl : legalStmts p) (ha : (Resolution.ofProgram p).diagnostics = [])
include hl ha

/-- A name that is not ready for use is that of a variable in whose initializer the
site lies. -/
theorem Within.pending (hw : Within p w) (hp : Pending x w.scopes i) :
    ∃ declaration value, Declares p x i w declaration value ∧ InInitializer value i w := by
  induction hw generalizing i with
  | refl => exact absurd hp Pending.not_nil
  | @part w w' hw hpart ih =>
    exact Within.pending_part hw (Within.sound hl ha hw) hpart (fun _ => ih) hp
  | @block w w' hw hblock ih =>
    have hscopes : w'.scopes = ∅ :: w.scopes ∧ ¬ w.node.IsExpr := by
      obtain ⟨context, names, node, state⟩ := w
      unfold Site.block? at hblock
      split at hblock
      · rename_i body hnode
        obtain rfl : node = .stmt (.block body) := hnode
        cases hblock
        exact ⟨rfl, id⟩
      · cases hblock
    rw [hscopes.1] at hp
    obtain ⟨j, rfl, hj⟩ := hp.of_push_empty
    obtain ⟨declaration, value, hd, hi⟩ := ih hj
    refine ⟨declaration, value, hd.shift ?_, .inr ?_⟩
    · rw [hscopes.1, List.length_cons]
      omega
    · exact (hi.anonymous hscopes.2).extend fun hin => hin.block hblock
  | @function w f hw hf ih =>
    obtain ⟨j, rfl, hj⟩ := hp.of_entry
    obtain ⟨hlength, hpending⟩ := Site.length_of_function? hf
    obtain ⟨declaration, value, hd, hi⟩ := ih (hpending x j hj)
    refine ⟨declaration, value, hd.shift ?_, .inr (hi.function hf)⟩
    rw [f.length_entry]
    omega
  | @method w f hw hf ih =>
    obtain ⟨j, rfl, hj⟩ := hp.of_entry
    obtain ⟨k, hk, hlength⟩ := (Within.sound hl ha hw).pending_of_method hf hj
    obtain ⟨declaration, value, hd, hi⟩ := ih hk
    have hn : ¬ w.node.IsExpr := by
      obtain ⟨context, names, node, state⟩ := w
      intro hn
      cases node with
      | expr e => cases hf
      | exprs es => cases hf
      | _ => cases hn
    refine ⟨declaration, value, hd.shift ?_, .inr ?_⟩
    · rw [f.length_entry]
      omega
    · exact (hi.anonymous hn).extend fun hin => hin.method hf

end

end ClassScript
