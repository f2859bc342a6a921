import ClassScript.Proofs.Scope.Distances

/-!
# The occurrences at a site

The occurrences in a part of a tree lie side by side among those of the whole tree, and their
positions all start with the way to the part (`Stretch`).  So the references of any site within an
accepted program are a stretch of those of the program, with the scopes that the walk has open
there (`Within.located`).  That is true of the body of a function as well, whenever it runs.
-/

namespace ClassScript

open Resolution

variable {β : Type}

/-! ## Stretches -/

/-- Seen from the position, the first occurrences lie side by side among the others. -/
def Stretch (os : List (Occurrence β)) (position : Position) (whole : List (Occurrence β)) :
    Prop :=
  os.map (.under position) <:+: whole

theorem Occurrence.under_under (position inner : Position) (o : Occurrence β) :
    (o.under inner).under position = o.under (position ++ inner) :=
  congrArg (Occurrence.mk o.toMention · o.scopes) (List.append_assoc ..).symm

namespace Stretch

variable {os part whole : List (Occurrence β)} {parts more : List (List (Occurrence β))}

theorem of_infix (h : os <:+: whole) : Stretch os [] whole := by
  have hid : os.map (.under []) = os := List.map_id os
  rw [Stretch, hid]
  exact h

theorem refl (os : List (Occurrence β)) : Stretch os [] os := of_infix (List.infix_refl os)

theorem trans {position inner : Position} (h : Stretch os inner part)
    (h' : Stretch part position whole) : Stretch os (position ++ inner) whole := by
  have hunder : Occurrence.under position ∘ Occurrence.under inner =
      Occurrence.under (β := β) (position ++ inner) :=
    funext (Occurrence.under_under position inner)
  have hmap := h.map (Occurrence.under position)
  rw [List.map_map, hunder] at hmap
  exact hmap.trans h'

theorem mem {position : Position} (h : Stretch os position whole) {o : Occurrence β}
    (ho : o ∈ os) : o.under position ∈ whole := h.subset (List.mem_map_of_mem ho)

/-- The last ones of some parts. -/
theorem suffix (i : Nat) (parts more : List (List (Occurrence β))) :
    Stretch (inParts (i + parts.length) more) [] (inParts i (parts ++ more)) := by
  rw [inParts_append]
  exact of_infix (List.suffix_append ..).isInfix

/-- One of some parts. -/
theorem of_mem (h : part ∈ parts) (i : Nat) :
    ∃ position, Stretch part position (inParts i parts) := by
  obtain ⟨first, rest, rfl⟩ := List.append_of_mem h
  refine ⟨[i + first.length], ?_⟩
  rw [inParts_append, inParts]
  exact ⟨inParts i first, inParts _ rest, List.append_assoc ..⟩

end Stretch

/-! ## Nodes -/

/-- The occurrences in a node that starts as the given part of what is around it. -/
def Node.occurrences (scopes : OpenScopes) (i : Nat) : Node β → List (Occurrence β)
  | .expr e => e.occurrences scopes
  | .exprs es => inParts i (exprsOccurrences scopes es)
  | .stmt s => s.occurrences scopes
  | .stmts body => inParts i (bodyOccurrences scopes body)
  | .elifs branches elseBranch =>
    inParts i (elifsOccurrences scopes branches ++ elseOccurrences scopes elseBranch)
  | .loop condition body => inParts 0 [condition.occurrences scopes, body.occurrences scopes]

/-- Seen from some position, the occurrences of the one node are a stretch of those of the
other. -/
def Node.LiesIn (scopes' : OpenScopes) (n' : Node β) (scopes : OpenScopes) (i : Nat) (n : Node β) :
    Prop :=
  ∃ i' position, Stretch (n'.occurrences scopes' i') position (n.occurrences scopes i)

/-- One of some parts that make up a node. -/
theorem Node.LiesIn.of_mem {n n' : Node β} {scopes scopes' : OpenScopes} {i j : Nat}
    {parts : List (List (Occurrence β))} (hn : n.occurrences scopes i = inParts j parts)
    (h : n'.occurrences scopes' 0 ∈ parts) : n'.LiesIn scopes' scopes i n := by
  obtain ⟨position, h⟩ := Stretch.of_mem h j
  exact ⟨0, position, hn ▸ h⟩

/-- The last ones of some parts that make up a node. -/
theorem Node.LiesIn.suffix {n n' : Node β} {scopes scopes' : OpenScopes} {i j : Nat}
    (parts : List (List (Occurrence β))) {more : List (List (Occurrence β))}
    (hn : n.occurrences scopes i = inParts j (parts ++ more))
    (h : n'.occurrences scopes' (j + parts.length) = inParts (j + parts.length) more) :
    n'.LiesIn scopes' scopes i n :=
  ⟨_, [], hn ▸ h ▸ Stretch.suffix j parts more⟩

theorem Expr.liesIn_of_mem_parts {e : Expr β} {n : Node β} (h : n ∈ e.parts)
    (scopes : OpenScopes) (i : Nat) : n.LiesIn scopes scopes i (.expr e) := by
  cases e with
  | literal | «variable» | this | super | lambda => cases h
  | grouping | unary | get =>
    obtain rfl := List.mem_singleton.mp h
    exact .of_mem rfl (List.mem_singleton_self _)
  | binary left op line right | logical left op line right =>
    rcases List.mem_pair.mp h with rfl | rfl
    · exact .of_mem rfl (List.mem_cons_self ..)
    · exact .of_mem rfl (List.mem_cons_of_mem _ (List.mem_singleton_self _))
  | set object field value =>
    rcases List.mem_pair.mp h with rfl | rfl
    · exact .of_mem rfl (List.mem_cons_of_mem _ (List.mem_singleton_self _))
    · exact .of_mem rfl (List.mem_cons_self ..)
  | call callee line arguments =>
    rcases List.mem_pair.mp h with rfl | rfl
    · exact .of_mem rfl (List.mem_cons_self ..)
    · exact .suffix [callee.occurrences scopes] rfl rfl
  | assign target value =>
    obtain rfl := List.mem_singleton.mp h
    obtain ⟨position, hs⟩ := Stretch.of_mem (List.mem_singleton_self (value.occurrences scopes)) 0
    exact ⟨0, position, List.IsInfix.trans hs (List.prefix_append ..).isInfix⟩

theorem Stmt.liesIn_of_mem_parts {s : Stmt β} {n : Node β} (h : n ∈ s.parts)
    (hd : s.declared = none) (scopes : OpenScopes) (i : Nat) :
    n.LiesIn scopes scopes i (.stmt s) := by
  cases s with
  | var | functionDecl | classDecl => cases hd
  | block | breakStmt => cases h
  | expression | print =>
    obtain rfl := List.mem_singleton.mp h
    exact .of_mem rfl (List.mem_singleton_self _)
  | returnStmt line value =>
    cases value with
    | none => cases h
    | some value =>
      obtain rfl := List.mem_singleton.mp h
      exact .of_mem rfl (List.mem_singleton_self _)
  | whileStmt condition body =>
    obtain rfl := List.mem_singleton.mp h
    exact ⟨0, [], .refl _⟩
  | ifStmt condition thenBranch elifs elseBranch =>
    simp only [Stmt.parts, List.mem_cons, List.not_mem_nil, or_false] at h
    rcases h with rfl | rfl | rfl
    · exact .of_mem rfl (List.mem_cons_self ..)
    · exact .of_mem rfl (List.mem_cons_of_mem _ (List.mem_cons_self ..))
    · exact .suffix [condition.occurrences scopes, thenBranch.occurrences scopes] rfl rfl

/-- The parts of a node that declares nothing are in the same scopes. -/
theorem Node.liesIn_of_mem_parts {n n' : Node β} (h : n' ∈ n.parts) (hd : n.declared = [])
    (scopes : OpenScopes) (i : Nat) : n'.LiesIn scopes scopes i n := by
  cases n with
  | expr e => exact Expr.liesIn_of_mem_parts h scopes i
  | exprs es =>
    cases es with
    | nil => cases h
    | cons e rest =>
      rcases List.mem_pair.mp h with rfl | rfl
      · exact .of_mem rfl (List.mem_cons_self ..)
      · exact .suffix [e.occurrences scopes] rfl rfl
  | stmt s =>
    refine Stmt.liesIn_of_mem_parts h ?_ scopes i
    cases hs : s.declared with
    | none => rfl
    | some name => simp [Node.declared, declaredNames, hs] at hd
  | stmts body =>
    cases body with
    | nil => cases h
    | cons s rest =>
      rcases List.mem_pair.mp h with rfl | rfl
      · exact .of_mem rfl (List.mem_cons_self ..)
      · rw [Node.declared, declaredNames_cons] at hd
        refine .suffix [s.occurrences scopes] rfl ?_
        rw [(List.append_eq_nil_iff.mp hd).1, declareIn_nil]
        rfl
  | elifs branches elseBranch =>
    rcases branches with _ | ⟨⟨condition, body⟩, rest⟩
    · cases elseBranch with
      | none => cases h
      | some s =>
        obtain rfl := List.mem_singleton.mp h
        exact .of_mem rfl (List.mem_singleton_self _)
    · simp only [Node.parts, List.mem_cons, List.not_mem_nil, or_false] at h
      rcases h with rfl | rfl | rfl
      · exact .of_mem rfl (List.mem_cons_self ..)
      · exact .of_mem rfl (List.mem_cons_of_mem _ (List.mem_cons_self ..))
      · exact .suffix [condition.occurrences scopes, body.occurrences scopes] rfl rfl
  | loop condition body =>
    simp only [Node.parts, List.mem_cons, List.not_mem_nil, or_false] at h
    rcases h with rfl | rfl | rfl
    · exact .of_mem rfl (List.mem_cons_self ..)
    · exact .of_mem rfl (List.mem_cons_of_mem _ (List.mem_cons_self ..))
    · exact ⟨0, [], .refl _⟩

/-! ## Sites -/

theorem Site.declared_resolved (w : Site) : w.resolved.declared = w.node.declared := by
  obtain ⟨context, names, node, state⟩ := w
  cases node with
  | stmt s => exact declaredNames_resolveStmt context s state
  | stmts body => exact declaredNames_resolveStmts context body state
  | elifs branches elseBranch => cases elseBranch <;> rfl
  | _ => rfl

/-- The stack of the walk at the site holds the scopes, and the occurrences in the node are a
stretch of those of the program. -/
structure Site.LocatedIn (p : Program Unit) (scopes : OpenScopes) (w : Site) : Prop where
  opened : Opened w.context.enclosingClass scopes w.scopes
  stretch : ∃ i position, Stretch (w.resolved.occurrences scopes i) position
    (programOccurrences (Resolution.ofProgram p).program)

/-- The stack of the walk around the function holds the scopes, and the occurrences in its body are
a stretch of those of the program. -/
structure FunctionSite.LocatedIn (p : Program Unit) (scopes : OpenScopes) (f : FunctionSite) :
    Prop where
  opened : Opened f.context.enclosingClass scopes f.state.scopes
  stretch : ∃ i position, Stretch (inParts i
      (bodyOccurrences (f.parameters.map Name.text :: scopes) (f.code .globals).body)) position
    (programOccurrences (Resolution.ofProgram p).program)

section

variable {p : Program Unit} {scopes scopes' : OpenScopes} {w w' : Site} {f : FunctionSite}

/-- What lies in a node that is located is located. -/
theorem Site.LocatedIn.inner (h : w.LocatedIn p scopes)
    (hl : ∀ i, w'.resolved.LiesIn scopes' scopes i w.resolved)
    (ho : Opened w'.context.enclosingClass scopes' w'.scopes) : w'.LocatedIn p scopes' := by
  obtain ⟨i, position, hs⟩ := h.stretch
  obtain ⟨i', position', hs'⟩ := hl i
  exact ⟨ho, i', _, hs'.trans hs⟩

theorem FunctionSite.LocatedIn.entry (hf : f.Sound) (h : f.LocatedIn p scopes) :
    f.entry.LocatedIn p (f.parameters.map Name.text :: scopes) := by
  refine ⟨?_, h.stretch⟩
  rw [show f.entry.scopes = enterAll (f.parameters.map Name.text) (∅ :: f.state.scopes) from
    (Walks.introduceAll f.parameters _).scopes]
  exact h.opened.parameters hf.ordinary

theorem Site.LocatedIn.part (hs : w.Sound) (h : w.LocatedIn p scopes) (hw : w' ∈ w.parts) :
    ∃ scopes', w'.LocatedIn p scopes' := by
  obtain ⟨hpart, hpass⟩ := Site.partOf_of_mem_parts hs.legal hw
  have hmem : w'.resolved ∈ w.resolved.parts := w.map_resolved_parts ▸ List.mem_map_of_mem hw
  have hopened := h.opened
  rw [← hpart.context] at hopened
  cases hpass with
  | same hscopes hd _ =>
    refine ⟨scopes, h.inner (fun i => Node.liesIn_of_mem_parts hmem ?_ scopes i) ?_⟩
    · rw [w.declared_resolved, hd]
    · rw [hscopes]
      exact hopened
  | first s rest hn hn' hscopes =>
    refine ⟨scopes, h.inner (fun i => ?_) (hscopes ▸ hopened)⟩
    obtain ⟨context, names, node, state⟩ := w
    obtain rfl : node = .stmts (s :: rest) := hn
    rcases List.mem_pair.mp hw with rfl | rfl
    · exact .of_mem rfl (List.mem_cons_self ..)
    · cases hn'
  | initializer name value hn hn' hscopes =>
    have hl := hs.legal
    rw [hn] at hl
    refine ⟨declareIn [name.text] scopes, h.inner (fun i => ?_)
      (hscopes ▸ hopened.enter hl.1.1 false)⟩
    obtain ⟨context, names, node, state⟩ := w
    obtain rfl : node = .stmt (.var name (some value)) := hn
    obtain rfl := List.mem_singleton.mp hw
    exact .of_mem rfl (List.mem_cons_of_mem _ (List.mem_singleton_self _))
  | rest s rest hn hn' hscopes =>
    have hl := hs.legal
    rw [hn] at hl
    refine ⟨declareIn (declaredNames [s]) scopes, h.inner (fun i => ?_)
      (hscopes ▸ hopened.enterAll fun x hx => (hl.1.ordinary x hx).1)⟩
    obtain ⟨context, names, node, state⟩ := w
    obtain rfl : node = .stmts (s :: rest) := hn
    rcases List.mem_pair.mp hw with rfl | rfl
    · cases hn'
    · rw [← declaredNames_resolveStmt context s state]
      exact .suffix [(resolveStmt context s state).1.occurrences scopes] rfl rfl

theorem Site.LocatedIn.block (h : w.LocatedIn p scopes) (hw : w.block? = some w') :
    w'.LocatedIn p ([] :: scopes) := by
  obtain ⟨context, names, node, state⟩ := w
  unfold Site.block? at hw
  split at hw
  · rename_i body hnode
    obtain rfl : node = .stmt (.block body) := hnode
    cases hw
    exact h.inner (fun _ => ⟨0, [], .refl _⟩) h.opened.push
  · cases hw

theorem Site.LocatedIn.function (hs : w.Sound) (h : w.LocatedIn p scopes)
    (hf : w.function? = some f) : ∃ scopes', f.LocatedIn p scopes' := by
  obtain ⟨i, position, hstretch⟩ := h.stretch
  have hl := hs.legal
  obtain ⟨context, names, node, state⟩ := w
  unfold Site.function? at hf
  split at hf
  · rename_i line parameters body hnode
    obtain rfl : node = .expr (.lambda line parameters body) := hnode
    cases hf
    exact ⟨scopes, h.opened, _, _, (Stretch.suffix 0 (parameters.map fun _ => []) _).trans hstretch⟩
  · rename_i name parameters body hnode
    obtain rfl : node = .stmt (.functionDecl (.mk name parameters body)) := hnode
    cases hf
    exact ⟨_, h.opened.introduce hl.1, _, _,
      (Stretch.suffix 0 ([] :: parameters.map fun _ => []) _).trans hstretch⟩
  · cases hf

theorem Site.stretch_of_mem_methodSites {context : Context} {names : List (List String)} :
    ∀ {methods : List (Function Unit)} {s : State}, f ∈ methodSites context names methods s →
      f.context.enclosingClass = context.enclosingClass ∧
        ∃ part ∈ methodsOccurrences scopes (resolveMethods context methods s).1, ∃ i,
          Stretch (inParts i (bodyOccurrences (f.parameters.map Name.text :: scopes)
            (f.code .globals).body)) [] part
  | [], _, hf => nomatch hf
  | .mk name parameters body :: rest, s, hf => by
    rcases List.mem_cons.mp hf with rfl | hf
    · exact ⟨rfl, _, List.mem_cons_self .., _, Stretch.suffix 0 (parameters.map fun _ => []) _⟩
    · obtain ⟨hc, part, hpart, h⟩ := stretch_of_mem_methodSites hf
      exact ⟨hc, part, List.mem_cons_of_mem _ hpart, h⟩

/-- The occurrences in the declaration of a class as resolution leaves it. -/
theorem Site.occurrences_classDecl {name : Name} {parent : Option (Reference Unit)}
    {methods : List (Function Unit)} (hn : w.node = .stmt (.classDecl name parent methods))
    (scopes : OpenScopes) (i : Nat) :
    let inner := declareIn [name.text] scopes
    let opened := resolveSuperclass name parent (introduce name w.state).2
    w.resolved.occurrences scopes i =
      inParts 0 ([] :: (superclassOccurrences inner opened.1 ++
        methodsOccurrences (classScopes parent.isSome inner)
          (resolveMethods (w.classContext parent.isSome) methods
            (classState parent.isSome opened.2)).1)) := by
  obtain ⟨context, names, node, state⟩ := w
  obtain rfl : node = .stmt (.classDecl name parent methods) := hn
  dsimp only
  rw [← Site.fst_inClass]
  show (resolveStmt context (.classDecl name parent methods) state).1.occurrences scopes = _
  rw [resolveStmt_classDecl]
  show inParts 0 ([] :: (superclassOccurrences _ _ ++ methodsOccurrences (classScopes
    (resolveSuperclass name parent (introduce name state).2).1.isSome _) _)) = _
  rw [resolveSuperclass_isSome]
  rfl

theorem Site.LocatedIn.method (hs : w.Sound) (h : w.LocatedIn p scopes) (hf : f ∈ w.methods) :
    ∃ scopes', f.LocatedIn p scopes' := by
  obtain ⟨name, parent, methods, hn⟩ := Site.classDecl_of_mem_methods hf
  have hl := hs.legal
  rw [hn] at hl
  have hmem : f ∈ methodSites (w.classContext parent.isSome) (classNames parent.isSome w.names)
      methods (classState parent.isSome
        (resolveSuperclass name parent (introduce name w.state).2).2) := by
    unfold Site.methods at hf
    rwa [hn] at hf
  obtain ⟨hc, part, hpart, i', hbody⟩ := Site.stretch_of_mem_methodSites hmem
  obtain ⟨i, position, hstretch⟩ := h.stretch
  rw [Site.occurrences_classDecl hn] at hstretch
  obtain ⟨position', hpart'⟩ := Stretch.of_mem
    (List.mem_cons_of_mem [] (List.mem_append_right (superclassOccurrences _ _) hpart)) 0
  refine ⟨_, ?_, i', _, (hbody.trans hpart').trans hstretch⟩
  rw [hc, Site.scopes_of_mem_methods hl.2 hn hf]
  exact (h.opened.enter hl.1.1 true).inClass parent.isSome

/-- The occurrences at a site within an accepted program are a stretch of those of the program. -/
theorem Within.located (hl : legalStmts p) (ha : (Resolution.ofProgram p).diagnostics = [])
    (hw : Within p w) : ∃ scopes, w.LocatedIn p scopes := by
  induction hw with
  | refl => exact ⟨[], ⟨.nil, fun _ => List.forall_mem_nil _⟩, 0, [], .refl _⟩
  | part hw hpart ih =>
    obtain ⟨scopes, ih⟩ := ih
    exact ih.part (Within.sound hl ha hw) hpart
  | block _ hblock ih =>
    obtain ⟨scopes, ih⟩ := ih
    exact ⟨_, ih.block hblock⟩
  | function hw hf ih =>
    obtain ⟨scopes, ih⟩ := ih
    obtain ⟨scopes', hf'⟩ := ih.function (Within.sound hl ha hw) hf
    exact ⟨_, hf'.entry ((Within.sound hl ha hw).function hf)⟩
  | method hw hf ih =>
    obtain ⟨scopes, ih⟩ := ih
    obtain ⟨scopes', hf'⟩ := ih.method (Within.sound hl ha hw) hf
    exact ⟨_, hf'.entry ((Within.sound hl ha hw).method hf)⟩

end

end ClassScript
