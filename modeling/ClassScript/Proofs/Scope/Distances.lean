import ClassScript.Proofs.Scope.Occurrences
import ClassScript.Proofs.Scope.Reference

/-!
# Distances of references

Resolution binds each occurrence to the innermost open scope that has its name, and it records
the reference if there is one (`resolveStmts_binds`).  So the bindings in a resolved program and the
references that were recorded for it are told by the occurrences of the program before
(`programOccurrences_ofProgram`, `references_ofProgram`), and each recorded distance leads to the
innermost open scope with the name (`innermost_of_closest`).

`Opened` compares the scopes of an occurrence with the stack of the walk.  `Binds` says of the
states before and after a step which occurrences were bound between them.
-/

namespace ClassScript

open Resolution

/-! ## The innermost scope with a name -/

/-- The binding of a name in open scopes: the innermost one that has it. -/
def closest (name : String) (scopes : OpenScopes) : Binding :=
  match scopes.findIdx? (name ∈ ·) with
  | none => .global
  | some distance => .local distance

/-- The scope at the distance is the innermost one that has the name. -/
structure Innermost (name : String) (scopes : OpenScopes) (distance : Nat) : Prop where
  lt_length : distance < scopes.length
  mem : ∃ names, scopes[distance]? = some names ∧ name ∈ names
  notMem : ∀ i names, i < distance → scopes[i]? = some names → name ∉ names

/-- The distance is the number of scopes within the first one with the name. -/
theorem closest_eq_local {name : String} {scopes : OpenScopes} {distance : Nat} :
    closest name scopes = .local distance ↔ scopes.findIdx? (name ∈ ·) = some distance := by
  unfold closest
  cases scopes.findIdx? (name ∈ ·) <;> simp

/-- A reference is to a global where no open scope has the name. -/
theorem closest_eq_global {name : String} {scopes : OpenScopes} :
    closest name scopes = .global ↔ ∀ names ∈ scopes, name ∉ names := by
  unfold closest
  cases h : scopes.findIdx? (name ∈ ·) with
  | none => simpa using h
  | some distance =>
    obtain ⟨hlt, hmem, -⟩ := List.findIdx?_eq_some_iff_getElem.mp h
    refine iff_of_false (nomatch ·) fun hall => ?_
    exact hall _ (List.getElem_mem hlt) (of_decide_eq_true hmem)

/-- The scope at the distance is the innermost one with the name. -/
theorem innermost_of_closest {name : String} {scopes : OpenScopes} {distance : Nat}
    (h : closest name scopes = .local distance) : Innermost name scopes distance := by
  obtain ⟨hlt, hmem, hbefore⟩ := List.findIdx?_eq_some_iff_getElem.mp (closest_eq_local.mp h)
  refine ⟨hlt, ⟨_, List.getElem?_eq_getElem hlt, of_decide_eq_true hmem⟩, fun i names hi hn => ?_⟩
  obtain ⟨hilt, rfl⟩ := List.getElem?_eq_some_iff.mp hn
  simpa using hbefore i hi

/-! ## Bound occurrences -/

/-- The occurrence with its binding. -/
def Occurrence.bound (o : Occurrence Unit) : Occurrence Binding :=
  ⟨⟨⟨o.name, closest o.name.text o.scopes⟩, o.kind⟩, o.position, o.scopes⟩

/-- What is recorded of a reference: its distance, if it is bound to a local scope. -/
def Mention.record? (m : Mention Binding) : Option LocalReference :=
  match m.binding with
  | .global => none
  | .local distance => some ⟨m.kind, m.name, distance⟩

/-- A record repeats the reference, its name and its distance. -/
theorem Mention.record?_eq_some {m : Mention Binding} {r : LocalReference} :
    m.record? = some r ↔ m.kind = r.kind ∧ m.name = r.name ∧ m.binding = .local r.distance := by
  obtain ⟨⟨name, binding⟩, kind⟩ := m
  obtain ⟨kind', name', distance⟩ := r
  cases binding <;> simp [record?]

/-- References to globals are the ones that are not recorded. -/
theorem Mention.record?_eq_none {m : Mention Binding} : m.record? = none ↔ m.binding = .global := by
  obtain ⟨⟨name, binding⟩, kind⟩ := m
  cases binding <;> simp [record?]

/-- A reference is recorded if some open scope has its name. -/
theorem Occurrence.exists_record?_bound (o : Occurrence Unit) :
    (∃ r, o.bound.record? = some r) ↔ ∃ names ∈ o.scopes, o.name.text ∈ names := by
  rw [← Option.isSome_iff_exists, Option.isSome_iff_ne_none, Ne, Mention.record?_eq_none]
  exact (not_congr closest_eq_global).trans (by simp only [not_forall, not_not, exists_prop])

/-- What is recorded of occurrences. -/
def records (os : List (Occurrence Binding)) : List LocalReference :=
  os.filterMap fun o => o.record?

theorem records_append (os more : List (Occurrence Binding)) :
    records (os ++ more) = records os ++ records more := List.filterMap_append

/-- Positions play no part in what is recorded. -/
theorem records_inParts (i : Nat) (parts : List (List (Occurrence Binding))) :
    records (inParts i parts) = parts.flatMap records := by
  induction parts generalizing i with
  | nil => rfl
  | cons part rest ih =>
    rw [inParts, records_append, ih, List.flatMap_cons, records, List.filterMap_map]
    rfl

/-- Binding keeps the positions. -/
theorem map_bound_inParts (i : Nat) (parts : List (List (Occurrence Unit))) :
    (inParts i parts).map Occurrence.bound = inParts i (parts.map (·.map Occurrence.bound)) := by
  induction parts generalizing i with
  | nil => rfl
  | cons part rest ih =>
    rw [inParts, List.map_append, ih, List.map_map, List.map_cons, inParts, List.map_map]
    rfl

/-! ## Open scopes and the stack of the walk -/

namespace Resolution

/-- The scopes of the stack hold the given names.  Outside of all classes none of them holds
`this`. -/
structure Opened (c : ClassContext) (scopes : OpenScopes) (stack : List StaticScope) : Prop where
  names : List.Forall₂ (fun names scope => ∀ x, scope.contains x = true ↔ x ∈ names) scopes stack
  this : c = .none → ∀ names ∈ scopes, "this" ∉ names

namespace Opened

variable {c : ClassContext} {scopes : OpenScopes} {stack : List StaticScope}

/-- Resolution binds a name to the innermost open scope that has it. -/
theorem bindingOf_eq (h : Opened c scopes stack) (name : String) :
    bindingOf name stack = closest name scopes := by
  have hfind : stack.findIdx? (·.contains name) = scopes.findIdx? (name ∈ ·) := by
    obtain ⟨hnames, -⟩ := h
    induction hnames with
    | nil => rfl
    | cons hscope _ ih =>
      have hc : _ = decide _ := Bool.eq_iff_iff.mpr ((hscope name).trans decide_eq_true_iff.symm)
      rw [List.findIdx?_cons, List.findIdx?_cons, hc, ih]
  cases hclosest : scopes.findIdx? (name ∈ ·) <;>
    simp only [bindingOf, closest, hfind, hclosest]

/-- A walk ends with the scopes that it began with. -/
theorem after {α : Type} {step : Walk α} (hw : Walks [] step) {s : State}
    (h : Opened c scopes s.scopes) : Opened c scopes (step s).2.scopes := by
  rw [(hw s).scopes]
  exact h

theorem reported (word : Name) (error : ScopeError) {s : State} (h : Opened c scopes s.scopes) :
    Opened c scopes (report word error s).2.scopes := h

/-- A name that is declared is open in the innermost scope. -/
theorem enter {x : String} (hx : x ≠ "this") (ready : Bool) (h : Opened c scopes stack) :
    Opened c (declareIn [x] scopes) (enter x ready stack) := by
  obtain ⟨hnames, hthis⟩ := h
  cases hnames with
  | nil => exact ⟨.nil, hthis⟩
  | @cons names scope _ _ hscope hrest =>
    refine ⟨.cons (fun y => ?_) hrest, fun hc => ?_⟩
    · rw [Slots.contains_set, hscope, List.mem_append, List.mem_singleton, or_comm, @eq_comm _ x]
    · obtain ⟨hfirst, hrest⟩ := List.forall_mem_cons.mp (hthis hc)
      refine List.forall_mem_cons.mpr ⟨fun hm => ?_, hrest⟩
      rcases List.mem_append.mp hm with hm | hm
      · exact hfirst hm
      · exact hx (List.mem_singleton.mp hm).symm

theorem enterAll {names : List String} (hx : ∀ x ∈ names, x ≠ "this")
    (h : Opened c scopes stack) : Opened c (declareIn names scopes) (enterAll names stack) := by
  induction names generalizing scopes stack with
  | nil =>
    rw [declareIn_nil]
    exact h
  | cons x rest ih =>
    obtain ⟨hfirst, hrest⟩ := List.forall_mem_cons.mp hx
    show Opened c (declareIn ([x] ++ rest) scopes) _
    rw [declareIn_append]
    exact ih hrest (h.enter hfirst true)

theorem introduce {name : Name} (hn : name.Ordinary) {s : State} (h : Opened c scopes s.scopes) :
    Opened c (declareIn [name.text] scopes) (Resolution.introduce name s).2.scopes := by
  rw [(Walks.introduce name s).scopes]
  exact h.enter hn.1 true

/-- After the names of a step. -/
theorem walks {α : Type} {names : List String} {step : Walk α} (hw : Walks names step)
    (hx : ∀ x ∈ names, x ≠ "this") {s : State} (h : Opened c scopes s.scopes) :
    Opened c (declareIn names scopes) (step s).2.scopes := by
  rw [(hw s).scopes]
  exact h.enterAll hx

theorem push (h : Opened c scopes stack) : Opened c ([] :: scopes) (∅ :: stack) :=
  ⟨.cons (fun _ => ⟨nofun, nofun⟩) h.names,
    fun hc => List.forall_mem_cons.mpr ⟨List.not_mem_nil, h.this hc⟩⟩

/-- Parameters in a new scope. -/
theorem parameters (h : Opened c scopes stack) {parameters : List Name}
    (hp : ∀ p ∈ parameters, p.Ordinary) :
    Opened c (parameters.map Name.text :: scopes)
      (Resolution.enterAll (parameters.map Name.text) (∅ :: stack)) :=
  h.push.enterAll fun _ hx => by
    obtain ⟨p, hm, rfl⟩ := List.mem_map.mp hx
    exact (hp p hm).1

theorem single (x : String) (y : String) :
    (Slots.single x true).contains y = true ↔ y ∈ [x] := by
  rw [Slots.contains_single, List.mem_singleton, eq_comm]

/-- Around the methods of a class. -/
theorem inClass (derived : Bool) (h : Opened c scopes stack) :
    Opened (if derived then .derived else .plain) (classScopes derived scopes)
      (Slots.single "this" true ::
        if derived then Slots.single "super" true :: stack else stack) := by
  cases derived with
  | false => exact ⟨.cons (single "this") h.names, nofun⟩
  | true => exact ⟨.cons (single "this") (.cons (single "super") h.names), nofun⟩

end Opened

/-! ## Steps that bind occurrences -/

/-- Between the states the occurrences were bound, and recorded in order. -/
structure Binds (os : List (Occurrence Unit)) (os' : List (Occurrence Binding)) (s s' : State) :
    Prop where
  bound : os' = os.map Occurrence.bound
  recorded : s'.references.toList = s.references.toList ++ records os'

/-- Between the states the occurrences of some parts were bound. -/
structure BindsAll (parts : List (List (Occurrence Unit)))
    (parts' : List (List (Occurrence Binding))) (s s' : State) : Prop where
  bound : parts' = parts.map (·.map Occurrence.bound)
  recorded : s'.references.toList = s.references.toList ++ parts'.flatMap records

/-- One walk after another binds the references of both. -/
theorem Binds.append {os more : List (Occurrence Unit)} {os' more' : List (Occurrence Binding)}
    {s s' s'' : State} (h : Binds os os' s s') (hs : Binds more more' s' s'') :
    Binds (os ++ more) (os' ++ more') s s'' where
  bound := by rw [h.bound, hs.bound, List.map_append]
  recorded := by rw [hs.recorded, h.recorded, records_append, List.append_assoc]

namespace BindsAll

variable {os : List (Occurrence Unit)} {os' : List (Occurrence Binding)}
  {parts more : List (List (Occurrence Unit))} {parts' more' : List (List (Occurrence Binding))}
  {s s' s'' : State}

theorem nil (s : State) : BindsAll [] [] s s := ⟨rfl, (List.append_nil _).symm⟩

theorem cons (h : Binds os os' s s') (hs : BindsAll parts parts' s' s'') :
    BindsAll (os :: parts) (os' :: parts') s s'' where
  bound := by rw [h.bound, hs.bound, List.map_cons]
  recorded := by rw [hs.recorded, h.recorded, List.flatMap_cons, List.append_assoc]

theorem append (h : BindsAll parts parts' s s') (hs : BindsAll more more' s' s'') :
    BindsAll (parts ++ more) (parts' ++ more') s s'' where
  bound := by rw [h.bound, hs.bound, List.map_append]
  recorded := by rw [hs.recorded, h.recorded, List.flatMap_append, List.append_assoc]

/-- Together, the parts are the references of a tree. -/
theorem inParts (h : BindsAll parts parts' s s') :
    Binds (inParts 0 parts) (inParts 0 parts') s s' where
  bound := by rw [h.bound, map_bound_inParts]
  recorded := by rw [h.recorded, records_inParts]

theorem skip (h : BindsAll parts parts' s s') : BindsAll ([] :: parts) ([] :: parts') s s' :=
  cons ⟨rfl, (List.append_nil _).symm⟩ h

/-- Parameters are parts without references. -/
theorem skipAll (names : List Name) (h : BindsAll parts parts' s s') :
    BindsAll (names.map (fun _ => []) ++ parts) (names.map (fun _ => []) ++ parts') s s' := by
  induction names with
  | nil => exact h
  | cons name rest ih => exact ih.skip

/-- Parts that are bound after a step that binds nothing. -/
theorem since (hr : s'.references = s.references) (h : BindsAll parts parts' s' s'') :
    BindsAll parts parts' s s'' := ⟨h.bound, hr ▸ h.recorded⟩

end BindsAll

namespace Binds

variable {os : List (Occurrence Unit)} {os' : List (Occurrence Binding)} {s s' : State}

/-- The occurrences of a tree with one part. -/
theorem only (h : Binds os os' s s') : Binds (inParts 0 [os]) (inParts 0 [os']) s s' :=
  (BindsAll.cons h (.nil _)).inParts

/-- A report before them binds nothing. -/
theorem reported {word : Name} {error : ScopeError} (h : Binds os os' (report word error s).2 s') :
    Binds os os' s s' := ⟨h.bound, h.recorded⟩

end Binds

section

variable {c : ClassContext} {scopes : OpenScopes}

/-- A reference is bound and recorded by one step. -/
theorem bind_binds {s : State} (h : Opened c scopes s.scopes) (kind : ReferenceKind) (name : Name) :
    Binds [Mention.here scopes ⟨⟨name, ()⟩, kind⟩]
      [Mention.here scopes ⟨⟨name, (bind kind name s).1⟩, kind⟩] s (bind kind name s).2 where
  bound := by
    rw [bind_fst, h.bindingOf_eq]
    rfl
  recorded := by
    rw [bind_fst]
    unfold Resolution.bind
    dsimp only [Bind.bind, StateT.bind, get, getThe, MonadStateOf.get, StateT.get, Pure.pure]
    cases bindingOf name.text s.scopes with
    | global => exact (List.append_nil _).symm
    | «local» distance => exact Array.toList_push ..

theorem readVariable_binds {s : State} (h : Opened c scopes s.scopes) (name : Name) :
    Binds [Mention.here scopes ⟨⟨name, ()⟩, .variable⟩]
      [Mention.here scopes ⟨(readVariable name s).1, .variable⟩] s (readVariable name s).2 := by
  rw [readVariable_apply]
  dsimp only
  split
  · exact (bind_binds (h.reported name .readInOwnInitializer) .variable name).reported
  · exact bind_binds h .variable name

/-- So is `this`, in a class or outside of one. -/
theorem readThis_binds {context : Context} {s : State}
    (h : Opened context.enclosingClass scopes s.scopes) (line : Nat) :
    Binds [Mention.here scopes ⟨⟨⟨"this", line⟩, ()⟩, .this⟩]
      [Mention.here scopes ⟨⟨⟨"this", line⟩, (readThis context line s).1⟩, .this⟩] s
      (readThis context line s).2 := by
  unfold readThis
  cases hc : context.enclosingClass with
  | none =>
    -- Nothing is looked up here, and nothing would be found.
    have hglobal : closest "this" scopes = .global := closest_eq_global.mpr (h.this hc)
    exact ⟨congrArg (fun b => [Mention.here scopes ⟨⟨⟨"this", line⟩, b⟩, .this⟩]) hglobal.symm,
      (List.append_nil _).symm⟩
  | plain => exact bind_binds h .this ⟨"this", line⟩
  | derived => exact bind_binds h .this ⟨"this", line⟩

/-- So is `super`. -/
theorem readSuper_binds {context : Context} {s : State} (h : Opened c scopes s.scopes)
    (line : Nat) :
    Binds [Mention.here scopes ⟨⟨⟨"super", line⟩, ()⟩, .super⟩]
      [Mention.here scopes ⟨⟨⟨"super", line⟩, (readSuper context line s).1⟩, .super⟩] s
      (readSuper context line s).2 := by
  unfold readSuper
  cases context.enclosingClass with
  | none =>
    exact (bind_binds (h.reported ⟨"super", line⟩ .superOutsideClass) .super _).reported
  | plain =>
    exact (bind_binds (h.reported ⟨"super", line⟩ .superWithoutSuperclass) .super _).reported
  | derived => exact bind_binds h .super ⟨"super", line⟩

/-- So is the name of a superclass. -/
theorem resolveSuperclass_binds {s : State} (h : Opened c scopes s.scopes) (name : Name)
    (parent : Option (Reference Unit)) :
    BindsAll (superclassOccurrences scopes parent)
      (superclassOccurrences scopes (resolveSuperclass name parent s).1) s
      (resolveSuperclass name parent s).2 := by
  cases parent with
  | none => exact .nil s
  | some parent =>
    rw [resolveSuperclass_apply]
    dsimp only
    split
    · have hreported := h.reported parent.name .inheritsFromItself
      exact .cons (readVariable_binds hreported parent.name).only.reported (.nil _)
    · exact .cons (readVariable_binds h parent.name).only (.nil _)

/-! ### Steps that bind nothing -/

/-- Declarations record no references. -/
theorem references_declare (name : Name) (s : State) :
    (declare name s).2.references = s.references := by
  show (((if declaredInnermost name.text s.scopes then
      report name .alreadyDeclared >>= fun _ => modify _ else modify _) : Walk Unit)
        s).2.references = s.references
  split <;> rfl

theorem references_introduce (name : Name) (s : State) :
    (introduce name s).2.references = s.references := references_declare name s

theorem references_introduceAll (names : List Name) (s : State) :
    (introduceAll names s).2.references = s.references := by
  induction names generalizing s with
  | nil => rfl
  | cons name rest ih => exact (ih (introduce name s).2).trans (references_introduce name s)

theorem references_checkReturn (context : Context) (line : Nat) (hasValue : Bool) (s : State) :
    (checkReturn context line hasValue s).2.references = s.references := by
  unfold checkReturn
  dsimp only
  split <;> split <;> rfl

end

/-! ### The walk over a tree -/

/-- What is bound inside the scopes of a class body. -/
theorem BindsAll.inClass {α : Type} {parts : List (List (Occurrence Unit))} {derived : Bool}
    {step : Walk α} {read : α → List (List (Occurrence Binding))} {s : State}
    (h : BindsAll parts (read (step (Site.classState derived s)).1) (Site.classState derived s)
      (step (Site.classState derived s)).2) :
    BindsAll parts (read (Resolution.inClass derived step s).1) s
      (Resolution.inClass derived step s).2 := by
  cases derived with
  | false => exact ⟨h.bound, h.recorded⟩
  | true => exact ⟨h.bound, h.recorded⟩

/-- A class is declared, its superclass resolved and its methods walked through, in this
order. -/
theorem resolveStmt_classDecl (context : Context) (name : Name)
    (superclass : Option (Reference Unit)) (methods : List (Function Unit)) (s : State) :
    resolveStmt context (.classDecl name superclass methods) s =
      let opened := resolveSuperclass name superclass (introduce name s).2
      let inside := Resolution.inClass superclass.isSome (resolveMethods
        { context with enclosingClass := if superclass.isSome then .derived else .plain } methods)
        opened.2
      (.classDecl name opened.1 inside.1, inside.2) := by
  rw [← resolveSuperclass_isSome name superclass (introduce name s).2]
  rfl

/-- The parameters and the body of a function. -/
theorem function_binds {c : ClassContext} {scopes : OpenScopes} {context : Context}
    {parameters : List Name} {body : List (Stmt Unit)} {s : State}
    (h : Opened c scopes s.scopes) (hp : ∀ p ∈ parameters, p.Ordinary)
    (hbody : ∀ s, Opened c (parameters.map Name.text :: scopes) s.scopes →
      BindsAll (bodyOccurrences (parameters.map Name.text :: scopes) body)
        (bodyOccurrences (parameters.map Name.text :: scopes) (resolveStmts context body s).1) s
        (resolveStmts context body s).2) :
    BindsAll (parameters.map (fun _ => []) ++
        bodyOccurrences (parameters.map Name.text :: scopes) body)
      (parameters.map (fun _ => []) ++ bodyOccurrences (parameters.map Name.text :: scopes)
        (inScope ∅ (introduceAll parameters >>= fun _ => resolveStmts context body) s).1) s
      (inScope ∅ (introduceAll parameters >>= fun _ => resolveStmts context body) s).2 := by
  let s₁ : State := { s with scopes := ∅ :: s.scopes }
  have hscopes := (Walks.introduceAll parameters s₁).scopes
  have hb := (hbody (introduceAll parameters s₁).2 (by rw [hscopes]; exact h.parameters hp)).skipAll
    parameters
  have hrecorded := hb.recorded
  rw [references_introduceAll] at hrecorded
  exact ⟨hb.bound, hrecorded⟩

-- By induction on the tree.  What the walk knows of a part is the stack, which is the same before
-- and after an expression and has one name more after a declaration.

mutual

theorem resolveExpr_binds (context : Context) (scopes : OpenScopes) :
    ∀ e : Expr Unit, e.Legal → ∀ s : State, Opened context.enclosingClass scopes s.scopes →
      Binds (e.occurrences scopes) ((resolveExpr context e s).1.occurrences scopes) s
        (resolveExpr context e s).2
  | .literal _, _, s, _ => (BindsAll.nil s).inParts
  | .grouping inner, hl, s, h => (resolveExpr_binds context scopes inner hl s h).only
  | .unary _ _ operand, hl, s, h => (resolveExpr_binds context scopes operand hl s h).only
  | .binary left _ _ right, hl, s, h =>
      (BindsAll.cons (resolveExpr_binds context scopes left hl.1 s h)
        (.cons (resolveExpr_binds context scopes right hl.2 _
          (h.after (resolveExpr_walks context left hl.1))) (.nil _))).inParts
  | .logical left _ _ right, hl, s, h =>
      (BindsAll.cons (resolveExpr_binds context scopes left hl.1 s h)
        (.cons (resolveExpr_binds context scopes right hl.2 _
          (h.after (resolveExpr_walks context left hl.1))) (.nil _))).inParts
  | .variable target, _, _, h => readVariable_binds h target.name
  | .assign target value, hl, s, h =>
      (resolveExpr_binds context scopes value hl.2 s h).only.append
        (bind_binds (h.after (resolveExpr_walks context value hl.2)) .assign target.name)
  | .call callee _ arguments, hl, s, h =>
      (BindsAll.cons (resolveExpr_binds context scopes callee hl.1 s h)
        (resolveExprs_binds context scopes arguments hl.2 _
          (h.after (resolveExpr_walks context callee hl.1)))).inParts
  | .get object _, hl, s, h => (resolveExpr_binds context scopes object hl s h).only
  | .set object _ value, hl, s, h =>
      (BindsAll.cons (resolveExpr_binds context scopes value hl.2 s h)
        (.cons (resolveExpr_binds context scopes object hl.1 _
          (h.after (resolveExpr_walks context value hl.2))) (.nil _))).inParts
  | .this line _, _, _, h => readThis_binds h line
  | .super line _ _, _, _, h => readSuper_binds h line
  | .lambda _ _ body, hl, _, h =>
      (function_binds h hl.1
        (resolveStmts_binds { context with function := .function } _ body hl.2)).inParts

theorem resolveExprs_binds (context : Context) (scopes : OpenScopes) :
    ∀ es : List (Expr Unit), legalExprs es → ∀ s : State,
      Opened context.enclosingClass scopes s.scopes →
        BindsAll (exprsOccurrences scopes es)
          (exprsOccurrences scopes (resolveExprs context es s).1) s (resolveExprs context es s).2
  | [], _, s, _ => .nil s
  | e :: rest, hl, s, h =>
      .cons (resolveExpr_binds context scopes e hl.1 s h)
        (resolveExprs_binds context scopes rest hl.2 _
          (h.after (resolveExpr_walks context e hl.1)))

theorem resolveStmt_binds (context : Context) (scopes : OpenScopes) :
    ∀ st : Stmt Unit, st.Legal → ∀ s : State, Opened context.enclosingClass scopes s.scopes →
      Binds (st.occurrences scopes) ((resolveStmt context st s).1.occurrences scopes) s
        (resolveStmt context st s).2
  | .expression value, hl, s, h => (resolveExpr_binds context scopes value hl s h).only
  | .print value, hl, s, h => (resolveExpr_binds context scopes value hl s h).only
  | .var name none, _, s, _ => by
      have hb := ((BindsAll.nil _).since (references_declare name s)).skip.inParts
      exact ⟨hb.bound, hb.recorded⟩
  | .var name (some value), hl, s, h => by
      have hinner : Opened context.enclosingClass (declareIn [name.text] scopes)
          (declare name s).2.scopes := by
        rw [Walks.declare_scopes]
        exact h.enter hl.1.1 false
      have hvalue := BindsAll.cons (resolveExpr_binds context _ value hl.2 _ hinner) (.nil _)
      have hb := (hvalue.since (references_declare name s)).skip.inParts
      exact ⟨hb.bound, hb.recorded⟩
  | .block body, hl, s, h => by
      have hb := (resolveStmts_binds context ([] :: scopes) body hl
        { s with scopes := ∅ :: s.scopes } h.push).inParts
      exact ⟨hb.bound, hb.recorded⟩
  | .ifStmt condition thenBranch elifs none, hl, s, h => by
      have h₁ := h.after (resolveExpr_walks context condition hl.1)
      have h₂ := h₁.after ((resolveStmt_walks context thenBranch hl.2.1.1).branch hl.2.1.2)
      exact (BindsAll.cons (resolveExpr_binds context scopes condition hl.1 s h)
        (.cons (resolveStmt_binds context scopes thenBranch hl.2.1.1 _ h₁)
          ((resolveElifs_binds context scopes elifs hl.2.2.1 _ h₂).append (.nil _)))).inParts
  | .ifStmt condition thenBranch elifs (some last), hl, s, h => by
      have h₁ := h.after (resolveExpr_walks context condition hl.1)
      have h₂ := h₁.after ((resolveStmt_walks context thenBranch hl.2.1.1).branch hl.2.1.2)
      have h₃ := h₂.after (resolveElifs_walks context elifs hl.2.2.1)
      exact (BindsAll.cons (resolveExpr_binds context scopes condition hl.1 s h)
        (.cons (resolveStmt_binds context scopes thenBranch hl.2.1.1 _ h₁)
          ((resolveElifs_binds context scopes elifs hl.2.2.1 _ h₂).append
            (.cons (resolveStmt_binds context scopes last hl.2.2.2.1 _ h₃) (.nil _))))).inParts
  | .whileStmt condition body, hl, s, h =>
      (BindsAll.cons (resolveExpr_binds context scopes condition hl.1 s h)
        (.cons (resolveStmt_binds context scopes body hl.2.1 _
          (h.after (resolveExpr_walks context condition hl.1))) (.nil _))).inParts
  | .functionDecl (.mk name parameters body), hl, s, h => by
      have hinner : Opened context.enclosingClass (declareIn [name.text] scopes)
          (introduce name s).2.scopes := h.introduce hl.1
      have hbody := resolveFunction_binds context .function _ (.mk name parameters body) hl _ hinner
      exact (hbody.since (references_introduce name s)).skip.inParts
  | .returnStmt line none, _, s, _ =>
      ((BindsAll.nil _).since (references_checkReturn context line false s)).inParts
  | .returnStmt line (some value), hl, s, h =>
      ((BindsAll.cons (resolveExpr_binds context scopes value hl _
        (h.after (Walks.checkReturn context line true))) (.nil _)).since
          (references_checkReturn context line true s)).inParts
  | .breakStmt _, _, s, _ => (BindsAll.nil s).inParts
  | .classDecl name superclass methods, hl, s, h => by
      have hinner : Opened context.enclosingClass (declareIn [name.text] scopes)
          (introduce name s).2.scopes := h.introduce hl.1
      have hsuper := (resolveSuperclass_binds hinner name superclass).since
        (references_introduce name s)
      have hopened := hinner.after (Walks.resolveSuperclass name superclass)
      have hmethods := (resolveMethods_binds
        { context with enclosingClass := if superclass.isSome then .derived else .plain } _ methods
        hl.2 _ (hopened.inClass superclass.isSome)).inClass
      rw [resolveStmt_classDecl]
      show Binds _ (inParts 0 ([] :: (superclassOccurrences _ _ ++ methodsOccurrences (classScopes
        (resolveSuperclass name superclass (introduce name s).2).1.isSome _) _))) _ _
      rw [resolveSuperclass_isSome]
      exact (hsuper.append hmethods).skip.inParts

theorem resolveStmts_binds (context : Context) (scopes : OpenScopes) :
    ∀ body : List (Stmt Unit), legalStmts body → ∀ s : State,
      Opened context.enclosingClass scopes s.scopes →
        BindsAll (bodyOccurrences scopes body)
          (bodyOccurrences scopes (resolveStmts context body s).1) s
          (resolveStmts context body s).2
  | [], _, s, _ => .nil s
  | st :: rest, hl, s, h => by
      have hrest := resolveStmts_binds context _ rest hl.2 _
        (h.walks (resolveStmt_walks context st hl.1) fun x hx => (hl.1.ordinary x hx).1)
      show BindsAll _ (_ :: bodyOccurrences (declareIn
        (declaredNames [(resolveStmt context st s).1]) scopes) _) _ _
      rw [declaredNames_resolveStmt]
      exact .cons (resolveStmt_binds context scopes st hl.1 s h) hrest

theorem resolveElifs_binds (context : Context) (scopes : OpenScopes) :
    ∀ branches : List (Elif Unit), legalElifs branches → ∀ s : State,
      Opened context.enclosingClass scopes s.scopes →
        BindsAll (elifsOccurrences scopes branches)
          (elifsOccurrences scopes (resolveElifs context branches s).1) s
          (resolveElifs context branches s).2
  | [], _, s, _ => .nil s
  | .mk condition body :: rest, hl, s, h => by
      have h₁ := h.after (resolveExpr_walks context condition hl.1.1)
      have h₂ := h₁.after ((resolveStmt_walks context body hl.1.2.1).branch hl.1.2.2)
      exact .cons (resolveExpr_binds context scopes condition hl.1.1 s h)
        (.cons (resolveStmt_binds context scopes body hl.1.2.1 _ h₁)
          (resolveElifs_binds context scopes rest hl.2 _ h₂))

theorem resolveFunction_binds (context : Context) (kind : FunctionContext) (scopes : OpenScopes) :
    ∀ f : Function Unit, f.Legal → ∀ s : State, Opened context.enclosingClass scopes s.scopes →
      BindsAll (functionOccurrences scopes f)
        (functionOccurrences scopes (resolveFunction context kind f s).1) s
        (resolveFunction context kind f s).2
  | .mk _ _ body, hl, _, h =>
      function_binds h hl.2.1 (resolveStmts_binds { context with function := kind } _ body hl.2.2)

theorem resolveMethods_binds (context : Context) (scopes : OpenScopes) :
    ∀ methods : List (Function Unit), legalFunctions methods → ∀ s : State,
      Opened context.enclosingClass scopes s.scopes →
        BindsAll (methodsOccurrences scopes methods)
          (methodsOccurrences scopes (resolveMethods context methods s).1) s
          (resolveMethods context methods s).2
  | [], _, s, _ => .nil s
  | f :: rest, hl, s, h =>
      .cons (resolveFunction_binds context _ scopes f hl.1 s h).inParts
        (resolveMethods_binds context scopes rest hl.2 _
          (h.after (resolveFunction_walks context _ f hl.1)))

end

end Resolution

/-! ## Programs -/

section

variable {p : Program Unit} (hp : legalStmts p)
include hp

theorem ofProgram_binds : Binds (programOccurrences p)
    (programOccurrences (Resolution.ofProgram p).program) ⟨[], [], #[]⟩
    (resolveStmts ⟨.topLevel, .none⟩ p ⟨[], [], #[]⟩).2 :=
  (resolveStmts_binds _ [] p hp _ ⟨.nil, fun _ => List.forall_mem_nil _⟩).inParts

/-- The occurrences of a resolved program are those of the program, each bound to the innermost
open scope with its name. -/
theorem programOccurrences_ofProgram :
    programOccurrences (Resolution.ofProgram p).program =
      (programOccurrences p).map Occurrence.bound :=
  (ofProgram_binds hp).bound

/-- What is recorded of a program is what its occurrences are bound to. -/
theorem references_ofProgram : (Resolution.ofProgram p).references.toList =
    records (programOccurrences (Resolution.ofProgram p).program) :=
  (ofProgram_binds hp).recorded

end

end ClassScript
