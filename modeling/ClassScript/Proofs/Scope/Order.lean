import ClassScript.Proofs.Scope.Initializer
import ClassScript.Proofs.Syntax.Order

/-!
# Scopes of ordered programs

In an ordered program, each name that a scope declares is in scope or is declared
later, at every site (`Site.Ordered`).  A variable that is read or assigned to is not
one of those that are declared later (`Site.Ordered.not_mem_of_read`,
`Site.Ordered.not_mem_of_assign`).  In particular no local variable is read in its own
initializer (`not_selfReading_of_ordered`).
-/

namespace ClassScript

open Resolution

/-- The names of a scope are there or come later. -/
def Accounts (later : List String) (scope : StaticScope) (names : List String) : Prop :=
  ∀ x ∈ names, scope.contains x = true ∨ x ∈ later

/-- The names of the open scopes are there or come later.  Those of the innermost one
may also be among the names that are being declared. -/
inductive Accounted (later declared : List String) :
    List StaticScope → List (List String) → Prop where
  | nil : Accounted later declared [] []
  | cons {scope : StaticScope} {names : List String} {outer : List StaticScope}
      {rest : List (List String)} : Accounts (declared ++ later) scope names →
      List.Forall₂ (Accounts later) outer rest →
      Accounted later declared (scope :: outer) (names :: rest)

/-- What is known of a site when the names in `later` are declared later in some open
scope. -/
structure Site.Ordered (w : Site) (later : List String) : Prop where
  node : w.node.ordered (!w.scopes.isEmpty) later = true
  accounted : Accounted later w.node.declared w.scopes w.names
  pending : ∀ x i, Pending x w.scopes i → x ∈ later
  ordinary : "this" ∉ later

/-! ## Accounting for names -/

theorem Accounts.mono {later later' : List String} {scope : StaticScope} {names : List String}
    (ha : Accounts later scope names) (hl : later ⊆ later') : Accounts later' scope names :=
  fun x hx => (ha x hx).imp_right fun h => hl h

theorem Accounts.enter {later : List String} {scope : StaticScope} {names : List String}
    {x : String} (ha : Accounts (x :: later) scope names) (ready : Bool) :
    Accounts later (scope.set x ready) names := by
  intro y hy
  rw [Slots.contains_set]
  rcases ha y hy with h | h
  · exact .inl (.inr h)
  · rcases List.mem_cons.mp h with rfl | h
    · exact .inl (.inl rfl)
    · exact .inr h

namespace Accounted

variable {later later' declared declared' : List String} {scopes : List StaticScope}
  {names : List (List String)}

theorem mono (ha : Accounted later declared scopes names) (hl : later ⊆ later')
    (hd : scopes ≠ [] → declared ⊆ declared' ++ later') :
    Accounted later' declared' scopes names := by
  cases ha with
  | nil => exact .nil
  | cons hf ho =>
    refine .cons (hf.mono fun x hx => ?_) (ho.imp fun _ _ h => h.mono hl)
    rcases List.mem_append.mp hx with hx | hx
    · exact hd (List.cons_ne_nil _ _) hx
    · exact List.mem_append_right _ (hl hx)

/-- A name that enters the innermost scope need not be declared any more. -/
theorem enter {x : String} (ha : Accounted later (x :: declared) scopes names) (ready : Bool) :
    Accounted later declared (enter x ready scopes) names := by
  cases ha with
  | nil => exact .nil
  | cons hf ho => exact .cons (Accounts.enter hf ready) ho

theorem enterAll {xs : List String} (ha : Accounted later (xs ++ declared) scopes names) :
    Accounted later declared (enterAll xs scopes) names := by
  induction xs generalizing scopes with
  | nil => exact ha
  | cons x rest ih => exact ih (ha.enter true)

/-- When nothing is being declared, all scopes are alike. -/
theorem all (ha : Accounted later [] scopes names) :
    List.Forall₂ (Accounts later) scopes names := by
  cases ha with
  | nil => exact .nil
  | cons hf ho => exact .cons hf ho

end Accounted

theorem Accounts.single (later : List String) (x : String) :
    Accounts later (Slots.single x true) [x] := by
  intro y hy
  obtain rfl := List.mem_singleton.mp hy
  exact .inl ((Slots.contains_single ..).mpr rfl)

/-! ## Steps -/

namespace Site.Ordered

variable {w w' : Site} {f : FunctionSite} {later : List String}

theorem part (ho : w.Ordered later) (hs : w.Sound) (hw : w' ∈ w.parts) :
    ∃ later', later ⊆ later' ∧ w'.Ordered later' := by
  obtain ⟨⟨-, hnames, -⟩, hp⟩ := Site.partOf_of_mem_parts hs.legal hw
  have hmem : w'.node ∈ w.node.parts := by
    rw [← w.map_node_parts]
    exact List.mem_map_of_mem hw
  obtain ⟨more, hordered, hdeclared, haccounted⟩ := Node.ordered_part ho.node hmem
  have hmore : later ⊆ more ++ later := List.subset_append_right ..
  have hthis : "this" ∉ more ++ later := by
    intro h
    rcases List.mem_append.mp h with h | h
    · exact (hs.legal.ordinary _ (hdeclared _ h)).1 rfl
    · exact ho.ordinary h
  have hlocal : w.scopes ≠ [] → (!w.scopes.isEmpty) = true := by
    intro hne
    simpa using hne
  refine ⟨more ++ later, hmore, ?_, ?_, ?_, hthis⟩
  · have hlength : w'.scopes.length = w.scopes.length := by
      cases hp with
      | same hscopes _ _ => rw [hscopes]
      | first s rest _ _ hscopes => rw [hscopes]
      | initializer name value _ _ hscopes => rw [hscopes, length_enter]
      | rest s rest _ _ hscopes => rw [hscopes, length_enterAll]
    have hempty : w'.scopes.isEmpty = w.scopes.isEmpty := by
      rw [Bool.eq_iff_iff, List.isEmpty_iff_length_eq_zero, List.isEmpty_iff_length_eq_zero,
        hlength]
    rw [hempty]
    exact hordered
  · rw [hnames]
    cases hp with
    | same hscopes hd _ =>
      rw [hscopes]
      refine ho.accounted.mono hmore fun _ => ?_
      rw [hd]
      exact List.nil_subset _
    | first s rest hnode hnode' hscopes =>
      rw [hscopes]
      refine ho.accounted.mono hmore fun hne x hx => ?_
      rcases haccounted (hlocal hne) x hx with h | h | ⟨s', rest', -, h, -⟩
      · exact List.mem_append_right _ (List.mem_append_left _ h)
      · exact List.mem_append_left _ h
      · rw [hnode'] at h
        cases h
    | initializer name value hnode hnode' hscopes =>
      rw [hscopes]
      refine Accounted.enter (ho.accounted.mono hmore fun _ x hx => ?_) false
      rw [hnode] at hx
      exact List.mem_append_left _ (List.mem_cons.mpr (.inl (List.mem_singleton.mp hx)))
    | rest s rest hnode hnode' hscopes =>
      rw [hscopes, hnode']
      refine Accounted.enterAll (ho.accounted.mono hmore fun _ x hx => ?_)
      rw [hnode, Node.declared, declaredNames_cons] at hx
      exact List.mem_append_left _ hx
  · intro x i hx
    cases hp with
    | same hscopes _ _ =>
      rw [hscopes] at hx
      exact hmore (ho.pending x i hx)
    | first s rest _ _ hscopes =>
      rw [hscopes] at hx
      exact hmore (ho.pending x i hx)
    | rest s rest _ _ hscopes =>
      rw [hscopes] at hx
      exact hmore (ho.pending x i hx.of_enterAll)
    | initializer name value hnode hnode' hscopes =>
      rw [hscopes] at hx
      rcases hx.of_enter with ⟨-, rfl, -, hne⟩ | hx
      · have hn : name.text ∈ w.node.declared := by
          rw [hnode]
          exact List.mem_singleton_self _
        rcases haccounted (hlocal hne) _ hn with h | h | ⟨s', rest', h, -, -⟩
        · exact List.mem_append_left _ h
        · rw [hnode'] at h
          cases h
        · rw [hnode] at h
          cases h
      · exact hmore (ho.pending x i hx)

theorem block (ho : w.Ordered later) (hw : w.block? = some w') : w'.Ordered later := by
  obtain ⟨context, names, node, state⟩ := w
  unfold Site.block? at hw
  split at hw
  · rename_i body hnode
    obtain rfl : node = .stmt (.block body) := hnode
    cases hw
    refine ⟨ho.node, .cons (fun x hx => .inr (List.mem_append_left _ hx)) ho.accounted.all,
      fun x i hx => ?_, ho.ordinary⟩
    obtain ⟨j, rfl, hj⟩ := hx.of_push_empty
    exact ho.pending x j hj
  · cases hw

/-- The body of a function, given what is known of the scopes around it. -/
theorem entry (hbody : orderedStmts true later f.body = true)
    (ha : List.Forall₂ (Accounts later) f.state.scopes f.names)
    (hp : ∀ x i, Pending x f.state.scopes i → x ∈ later) (hthis : "this" ∉ later) :
    f.entry.Ordered later := by
  refine ⟨?_, ?_, fun x i hx => ?_, hthis⟩
  · have hne : f.entry.scopes ≠ [] := by
      intro hnil
      have hlength := f.length_entry
      rw [hnil] at hlength
      cases hlength
    rw [List.isEmpty_eq_false_iff.mpr hne]
    exact hbody
  · rw [f.scopes_entry]
    exact Accounted.enterAll (.cons (fun x hx => .inr (List.mem_append_left _ hx)) ha)
  · obtain ⟨j, rfl, hj⟩ := hx.of_entry
    exact hp x j hj

theorem function (ho : w.Ordered later) (hf : w.function? = some f) : f.entry.Ordered later := by
  have hp := (Site.length_of_function? hf).2
  obtain ⟨context, names, node, state⟩ := w
  unfold Site.function? at hf
  split at hf
  · rename_i line parameters body hnode
    obtain rfl : node = .expr (.lambda line parameters body) := hnode
    cases hf
    exact entry ho.node ho.accounted.all (fun x i hx => ho.pending x i (hp x i hx)) ho.ordinary
  · rename_i name parameters body hnode
    obtain rfl : node = .stmt (.functionDecl (.mk name parameters body)) := hnode
    cases hf
    refine entry ho.node ?_ (fun x i hx => ho.pending x i (hp x i hx)) ho.ordinary
    rw [show (introduce name state).2.scopes = enter name.text true state.scopes from
      (Walks.introduce name state).scopes]
    exact (Accounted.enter ho.accounted true).all
  · cases hf

theorem ordered_of_mem_methodSites {context : Context} {names : List (List String)} :
    ∀ {methods : List (Function Unit)} {s : State}, orderedFunctions later methods = true →
      f ∈ Site.methodSites context names methods s → orderedStmts true later f.body = true
  | [], _, _, hf => nomatch hf
  | .mk name parameters body :: rest, s, ho, hf => by
    simp only [orderedFunctions, Function.ordered, Bool.and_eq_true] at ho
    rcases List.mem_cons.mp hf with rfl | hf
    · exact ho.1
    · exact ordered_of_mem_methodSites ho.2 hf

theorem method (ho : w.Ordered later) (hs : w.Sound) (hf : f ∈ w.methods) :
    f.entry.Ordered later := by
  obtain ⟨name, parent, methods, hn⟩ := Site.classDecl_of_mem_methods hf
  have hl := hs.legal
  rw [hn] at hl
  have hordered := ho.node
  rw [hn] at hordered
  have hbody : orderedStmts true later f.body = true := by
    have hmethods : orderedFunctions later methods = true := by
      cases parent with
      | none => exact hordered
      | some parent =>
        simp only [Node.ordered, Stmt.ordered, Bool.and_eq_true] at hordered
        exact hordered.2
    unfold Site.methods at hf
    rw [hn] at hf
    exact ordered_of_mem_methodSites hmethods hf
  have ha : List.Forall₂ (Accounts later) (enter name.text true w.scopes) w.names := by
    have h := ho.accounted
    rw [hn] at h
    exact (Accounted.enter h true).all
  refine entry hbody ?_ (fun x i hx => ?_) ho.ordinary
  · rw [Site.scopes_of_mem_methods hl.2 hn hf, Site.names_of_mem_methods hn hf]
    refine .cons (Accounts.single later "this") ?_
    cases parent with
    | none => exact ha
    | some parent => exact .cons (Accounts.single later "super") ha
  · obtain ⟨j, hj, -⟩ := hs.pending_of_method hf hx
    exact ho.pending x j hj

/-- All sites inside of an ordered one are ordered. -/
theorem inside (ho : w.Ordered later) (hs : w.Sound) (hw : Inside w w') :
    ∃ later', later ⊆ later' ∧ w'.Ordered later' := by
  induction hw with
  | refl => exact ⟨later, List.Subset.refl _, ho⟩
  | part hw hpart ih =>
    obtain ⟨later', hl, ho'⟩ := ih
    obtain ⟨later'', hl', ho''⟩ := ho'.part (hw.sound hs) hpart
    exact ⟨later'', List.Subset.trans hl hl', ho''⟩
  | block hw hblock ih =>
    obtain ⟨later', hl, ho'⟩ := ih
    exact ⟨later', hl, ho'.block hblock⟩
  | function hw hf ih =>
    obtain ⟨later', hl, ho'⟩ := ih
    exact ⟨later', hl, ho'.function hf⟩
  | method hw hf ih =>
    obtain ⟨later', hl, ho'⟩ := ih
    exact ⟨later', hl, ho'.method (hw.sound hs) hf⟩

/-- A variable that is read is not one that is declared later. -/
theorem not_mem_of_read (ho : w.Ordered later) {name : Name} {b : Binding}
    (hr : w.resolved.read? = some (name, b)) : name.text ∉ later := by
  have hn := ho.node
  rcases w.node_of_read hr with ⟨hnode, -⟩ | ⟨word, methods, hnode, -⟩
  · rw [hnode] at hn
    simpa [Node.ordered, Expr.ordered] using hn
  · rw [hnode] at hn
    simp only [Node.ordered, Stmt.ordered, Bool.and_eq_true, decide_eq_true_eq] at hn
    exact hn.1

theorem not_mem_of_assign (ho : w.Ordered later) {target : Reference Binding}
    {value : Expr Binding} (hr : w.resolved = .expr (.assign target value)) :
    target.name.text ∉ later := by
  obtain ⟨e, hnode, hr⟩ := w.expr_of_resolved hr
  have hn := ho.node
  rw [hnode] at hn
  cases e with
  | assign target' value' =>
    cases hr
    simp only [Node.ordered, Expr.ordered, Bool.and_eq_true, decide_eq_true_eq] at hn
    exact hn.1
  | _ => cases hr

end Site.Ordered

/-! ## Programs -/

section

variable {p : Program Unit} {w : Site} (hl : legalStmts p)
  (ha : (Resolution.ofProgram p).diagnostics = []) (ho : p.ordered = true)
include hl ha ho

theorem Within.ordered (hw : Within p w) : ∃ later, w.Ordered later := by
  have htop : (Site.top p).Ordered [] := ⟨ho, .nil, fun _ _ hp => (Pending.not_nil hp).elim, nofun⟩
  have hs : (Site.top p).Sound := Within.sound hl ha .refl
  obtain ⟨later, -, ho⟩ := htop.inside hs hw
  exact ⟨later, ho⟩

end

end ClassScript
