import ClassScript.Proofs.Scope.Rules
import ClassScript.Scope.Binding
import Mathlib.Data.List.Forall2
import Mathlib.Data.List.Nodup

/-!
# References where they stand

The occurrences of a program are the places where it refers to a variable, to `this` or to
`super`.  Each one is told by its position, and it comes with the local scopes that are open
there: the names that each of them has at that moment, the innermost scope first.  A scope
has its parameters and what is declared in it up to the statement at hand, the declaration
that the occurrence itself may lie in included.

The trees alone say all this, whatever their bindings are.  `Expr.occurrences` and its like go
through the parts of a tree in the order of its spots, so that occurrences have the positions
of spots: each reference among the spots of a program is one occurrence
(`exists_mem_programOccurrences`), and no two of them share a position
(`apart_programOccurrences`).
-/

namespace ClassScript

variable {β : Type}

/-! ## Occurrences -/

/-- A use of a name, and how it is used. -/
structure Mention (β : Type) extends Reference β where
  /-- The kind of the expression. -/
  kind : ReferenceKind
deriving DecidableEq, Repr

/-- What an expression refers to by itself. -/
def Expr.mention? : Expr β → Option (Mention β)
  | .variable target => some ⟨target, .variable⟩
  | .assign target _ => some ⟨target, .assign⟩
  | .this line binding => some ⟨⟨⟨"this", line⟩, binding⟩, .this⟩
  | .super line _ binding => some ⟨⟨⟨"super", line⟩, binding⟩, .super⟩
  | _ => none

/-- The names that the open local scopes have, the innermost scope first. -/
abbrev OpenScopes := List (List String)

/-- The open scopes after names are declared in the innermost one. -/
def declareIn (names : List String) : OpenScopes → OpenScopes
  | [] => []
  | scope :: outer => (scope ++ names) :: outer

theorem declareIn_nil (scopes : OpenScopes) : declareIn [] scopes = scopes := by
  cases scopes with
  | nil => rfl
  | cons scope outer => rw [declareIn, List.append_nil]

theorem declareIn_append (names more : List String) (scopes : OpenScopes) :
    declareIn (names ++ more) scopes = declareIn more (declareIn names scopes) := by
  cases scopes with
  | nil => rfl
  | cons scope outer => rw [declareIn, declareIn, declareIn, List.append_assoc]

/-- The open scopes around the methods of a class. -/
def classScopes (derived : Bool) (scopes : OpenScopes) : OpenScopes :=
  ["this"] :: if derived then ["super"] :: scopes else scopes

/-- A reference in a tree. -/
structure Occurrence (β : Type) extends Mention β where
  /-- Where it stands. -/
  position : Position
  /-- The scopes that are open there. -/
  scopes : OpenScopes
deriving DecidableEq, Repr

/-- The reference that an expression is by itself. -/
def Mention.here (scopes : OpenScopes) (m : Mention β) : Occurrence β := ⟨m, [], scopes⟩

/-- The occurrence, seen from further out. -/
def Occurrence.under (position : Position) (o : Occurrence β) : Occurrence β :=
  { o with position := position ++ o.position }

/-- The occurrences of parts that stand side by side, the first of them as the given part of the
whole. -/
def inParts : Nat → List (List (Occurrence β)) → List (Occurrence β)
  | _, [] => []
  | i, part :: rest => part.map (.under [i]) ++ inParts (i + 1) rest

/-- The occurrence in the superclass of a class, if it has one. -/
def superclassOccurrences (scopes : OpenScopes) :
    Option (Reference β) → List (List (Occurrence β))
  | none => []
  | some parent => [inParts 0 [[Mention.here scopes ⟨parent, .variable⟩]]]

mutual

/-- The occurrences in an expression, in the order in which they are resolved. -/
def Expr.occurrences (scopes : OpenScopes) : Expr β → List (Occurrence β)
  | .literal _ => []
  | .grouping inner => inParts 0 [inner.occurrences scopes]
  | .unary _ _ operand => inParts 0 [operand.occurrences scopes]
  | .binary left _ _ right => inParts 0 [left.occurrences scopes, right.occurrences scopes]
  | .logical left _ _ right => inParts 0 [left.occurrences scopes, right.occurrences scopes]
  | .variable target => [Mention.here scopes ⟨target, .variable⟩]
  | .assign target value =>
    inParts 0 [value.occurrences scopes] ++ [Mention.here scopes ⟨target, .assign⟩]
  | .call callee _ arguments =>
    inParts 0 (callee.occurrences scopes :: exprsOccurrences scopes arguments)
  | .get object _ => inParts 0 [object.occurrences scopes]
  | .set object _ value => inParts 0 [value.occurrences scopes, object.occurrences scopes]
  | .this line binding => [Mention.here scopes ⟨⟨⟨"this", line⟩, binding⟩, .this⟩]
  | .super line _ binding => [Mention.here scopes ⟨⟨⟨"super", line⟩, binding⟩, .super⟩]
  | .lambda _ parameters body =>
    inParts 0 (parameters.map (fun _ => []) ++
      bodyOccurrences (parameters.map Name.text :: scopes) body)

/-- The occurrences in each of some expressions. -/
def exprsOccurrences (scopes : OpenScopes) : List (Expr β) → List (List (Occurrence β))
  | [] => []
  | e :: rest => e.occurrences scopes :: exprsOccurrences scopes rest

/-- The occurrences in a statement.  The scopes are those before it. -/
def Stmt.occurrences (scopes : OpenScopes) : Stmt β → List (Occurrence β)
  | .expression value => inParts 0 [value.occurrences scopes]
  | .print value => inParts 0 [value.occurrences scopes]
  | .var _ none => inParts 0 [[]]
  | .var name (some value) => inParts 0 [[], value.occurrences (declareIn [name.text] scopes)]
  | .block body => inParts 0 (bodyOccurrences ([] :: scopes) body)
  | .ifStmt condition thenBranch elifs elseBranch =>
    inParts 0 (condition.occurrences scopes :: thenBranch.occurrences scopes ::
      (elifsOccurrences scopes elifs ++ elseOccurrences scopes elseBranch))
  | .whileStmt condition body => inParts 0 [condition.occurrences scopes, body.occurrences scopes]
  | .functionDecl f =>
    inParts 0 ([] :: functionOccurrences (declareIn [f.name.text] scopes) f)
  | .returnStmt _ none => []
  | .returnStmt _ (some value) => inParts 0 [value.occurrences scopes]
  | .breakStmt _ => []
  | .classDecl name superclass methods =>
    let inner := declareIn [name.text] scopes
    inParts 0 ([] :: (superclassOccurrences inner superclass ++
      methodsOccurrences (classScopes superclass.isSome inner) methods))

/-- The occurrences in each statement of a scope, which stand behind each other. -/
def bodyOccurrences (scopes : OpenScopes) : List (Stmt β) → List (List (Occurrence β))
  | [] => []
  | s :: rest =>
    s.occurrences scopes :: bodyOccurrences (declareIn (declaredNames [s]) scopes) rest

/-- The occurrences in the conditions and branches of a choice that has been started. -/
def elifsOccurrences (scopes : OpenScopes) : List (Elif β) → List (List (Occurrence β))
  | [] => []
  | .mk condition body :: rest =>
    condition.occurrences scopes :: body.occurrences scopes :: elifsOccurrences scopes rest

/-- The occurrences in the last branch of a choice, if it has one. -/
def elseOccurrences (scopes : OpenScopes) : Option (Stmt β) → List (List (Occurrence β))
  | none => []
  | some s => [s.occurrences scopes]

/-- The occurrences in the parameters and in each statement of a function. -/
def functionOccurrences (scopes : OpenScopes) : Function β → List (List (Occurrence β))
  | .mk _ parameters body =>
    parameters.map (fun _ => []) ++ bodyOccurrences (parameters.map Name.text :: scopes) body

/-- The occurrences in each of some methods. -/
def methodsOccurrences (scopes : OpenScopes) : List (Function β) → List (List (Occurrence β))
  | [] => []
  | f :: rest => inParts 0 (functionOccurrences scopes f) :: methodsOccurrences scopes rest

end

/-- The occurrences of a program. -/
def programOccurrences (p : Program β) : List (Occurrence β) := inParts 0 (bodyOccurrences [] p)

/-! ## Parts side by side -/

theorem inParts_append (i : Nat) (parts more : List (List (Occurrence β))) :
    inParts i (parts ++ more) = inParts i parts ++ inParts (i + parts.length) more := by
  induction parts generalizing i with
  | nil => rfl
  | cons part rest ih =>
    rw [List.cons_append, inParts, inParts, ih, List.append_assoc, List.length_cons,
      Nat.add_right_comm, Nat.add_assoc i]

/-- An occurrence in parts is one of a part, with the number of the part in front. -/
theorem mem_inParts {i : Nat} {parts : List (List (Occurrence β))} {o : Occurrence β} :
    o ∈ inParts i parts ↔
      ∃ (k : Nat) (part : List (Occurrence β)), parts[k]? = some part ∧
        ∃ o' ∈ part, o = o'.under [i + k] := by
  induction parts generalizing i with
  | nil => exact ⟨nofun, fun ⟨_, _, h, _⟩ => nomatch h⟩
  | cons part rest ih =>
    have hnext (k : Nat) : i + 1 + k = i + (k + 1) := Nat.succ_add_eq_add_succ i k
    rw [inParts, List.mem_append, ih, List.mem_map]
    constructor
    · rintro (⟨o', ho', rfl⟩ | ⟨k, part', hk, o', ho', rfl⟩)
      · exact ⟨0, part, rfl, o', ho', rfl⟩
      · exact ⟨k + 1, part', hk, o', ho', by rw [hnext]⟩
    · rintro ⟨k, part', hk, o', ho', rfl⟩
      cases k with
      | zero =>
        obtain rfl : part = part' := Option.some.inj hk
        exact .inl ⟨o', ho', rfl⟩
      | succ k => exact .inr ⟨k, part', hk, o', ho', by rw [hnext]⟩

/-- No two occurrences share a position. -/
def Apart (os : List (Occurrence β)) : Prop := os.Pairwise fun o o' => o.position ≠ o'.position

/-- Occurrences are told apart by their positions. -/
theorem Apart.eq_of_position {os : List (Occurrence β)} (h : Apart os) {o o' : Occurrence β}
    (ho : o ∈ os) (ho' : o' ∈ os) (hp : o.position = o'.position) : o = o' :=
  List.inj_on_of_nodup_map (List.pairwise_map.mpr h) ho ho' hp

/-- Parts keep apart, by their numbers. -/
theorem Apart.inParts {parts : List (List (Occurrence β))} (h : ∀ part ∈ parts, Apart part)
    (i : Nat) : Apart (inParts i parts) := by
  induction parts generalizing i with
  | nil => exact .nil
  | cons part rest ih =>
    obtain ⟨hpart, hrest⟩ := List.forall_mem_cons.mp h
    refine List.pairwise_append.mpr ⟨List.pairwise_map.mpr (hpart.imp fun hne he => ?_),
      ih hrest _, fun o ho o' ho' he => ?_⟩
    · exact hne (List.cons.inj he).2
    · obtain ⟨_, _, rfl⟩ := List.mem_map.mp ho
      obtain ⟨k, _, _, _, _, rfl⟩ := mem_inParts.mp ho'
      have hi : i = i + 1 + k := (List.cons.inj he).1
      omega

/-! ## Occurrences and spots -/

/-- Something is referred to at the position among the spots. -/
def RefersAt (spots : Spots) (position : Position) (m : Mention Unit) : Prop :=
  ∃ outer e, At spots position outer (.expr e) ∧ e.mention? = some m

/-- What a spot refers to by itself. -/
def Spot.mention? : Spot → Option (Mention Unit)
  | .expr e => e.mention?
  | _ => none

/-- The occurrences are those in the spot, each of them once. -/
structure Noted (outer : List Enclosure) (spot : Spot) (os : List (Occurrence Unit)) :
    Prop where
  apart : Apart os
  mem_iff : ∀ position m, (∃ o ∈ os, o.position = position ∧ o.toMention = m) ↔
    position = [] ∧ spot.mention? = some m ∨ RefersAt (spot.children outer) position m

/-- The occurrences are those in the spots, list by list. -/
abbrev AllNoted (spots : Spots) (parts : List (List (Occurrence Unit))) : Prop :=
  List.Forall₂ (fun entry os => Noted entry.1 entry.2 os) spots parts

theorem RefersAt.position_ne_nil {spots : Spots} {position : Position} {m : Mention Unit}
    (h : RefersAt spots position m) : position ≠ [] := by
  obtain ⟨_, _, h, _⟩ := h
  exact h.position_ne_nil

/-- A position leads to a spot, and on to the positions inside it. -/
theorem refersAt_cons {spots : Spots} {i : Nat} {position : Position} {m : Mention Unit} :
    RefersAt spots (i :: position) m ↔ ∃ outer spot, spots[i]? = some (outer, spot) ∧
      (position = [] ∧ spot.mention? = some m ∨ RefersAt (spot.children outer) position m) := by
  constructor
  · rintro ⟨outer, e, hat, hm⟩
    cases hat with
    | here hi => exact ⟨outer, .expr e, hi, .inl ⟨rfl, hm⟩⟩
    | inside hi hat => exact ⟨_, _, hi, .inr ⟨outer, e, hat, hm⟩⟩
  · rintro ⟨outer, spot, hi, ⟨rfl, hm⟩ | ⟨inner, e, hat, hm⟩⟩
    · cases spot with
      | expr e => exact ⟨outer, e, .here hi, hm⟩
      | _ => cases hm
    · exact ⟨inner, e, .inside hi hat, hm⟩

namespace AllNoted

variable {spots : Spots} {parts : List (List (Occurrence Unit))}

/-- The occurrences of parts are apart. -/
theorem apart (h : AllNoted spots parts) : Apart (inParts 0 parts) := by
  refine .inParts (fun part hpart => ?_) 0
  obtain ⟨i, hi, rfl⟩ := List.mem_iff_getElem.mp hpart
  have hlt : i < spots.length := h.length_eq ▸ hi
  exact (h.get hlt hi).apart

/-- The occurrences of parts are what the parts refer to. -/
theorem mem_iff (h : AllNoted spots parts) (position : Position) (m : Mention Unit) :
    (∃ o ∈ inParts 0 parts, o.position = position ∧ o.toMention = m) ↔
      RefersAt spots position m := by
  cases position with
  | nil =>
    refine iff_of_false ?_ fun hr => hr.position_ne_nil rfl
    rintro ⟨o, ho, hp, -⟩
    obtain ⟨k, part, hk, o', ho', rfl⟩ := mem_inParts.mp ho
    cases hp
  | cons i position =>
    rw [refersAt_cons]
    constructor
    · rintro ⟨o, ho, hp, rfl⟩
      obtain ⟨k, part, hk, o', ho', rfl⟩ := mem_inParts.mp ho
      obtain ⟨hk', rfl⟩ := List.getElem?_eq_some_iff.mp hk
      obtain ⟨rfl, rfl⟩ := List.cons.inj hp
      have hlt : k < spots.length := h.length_eq ▸ hk'
      refine ⟨_, _, ?_, ((h.get hlt hk').mem_iff _ _).mp ⟨o', ho', rfl, rfl⟩⟩
      rw [Nat.zero_add, List.getElem?_eq_getElem hlt]
      rfl
    · rintro ⟨outer, spot, hi, hm⟩
      obtain ⟨hlt, hi⟩ := List.getElem?_eq_some_iff.mp hi
      have hlt' : i < parts.length := h.length_eq ▸ hlt
      have hnoted := h.get hlt hlt'
      rw [List.get_eq_getElem, hi] at hnoted
      obtain ⟨o, ho, rfl, rfl⟩ := (hnoted.mem_iff _ _).mpr hm
      refine ⟨o.under [i], mem_inParts.mpr ⟨i, _, List.getElem?_eq_getElem hlt', o, ho, ?_⟩,
        rfl, rfl⟩
      rw [Nat.zero_add]

end AllNoted

namespace Noted

variable {outer : List Enclosure} {spot : Spot} {parts : List (List (Occurrence Unit))}

/-- A spot that refers to nothing by itself. -/
theorem inner (h : AllNoted (spot.children outer) parts) (hm : spot.mention? = none) :
    Noted outer spot (inParts 0 parts) where
  apart := h.apart
  mem_iff position m := by
    rw [h.mem_iff, hm]
    exact ⟨.inr, fun h => h.resolve_left (nomatch ·.2)⟩

/-- A spot with nothing inside that refers to nothing. -/
theorem nothing (hc : spot.children outer = []) (hm : spot.mention? = none) :
    Noted outer spot [] := by
  have h : AllNoted (spot.children outer) [] := hc ▸ .nil
  exact inner h hm

/-- An expression that is a reference itself. -/
theorem own (e : Expr Unit) (h : AllNoted (e.spots outer) parts) {m : Mention Unit}
    (hm : e.mention? = some m) (scopes : OpenScopes) :
    Noted outer (.expr e) (inParts 0 parts ++ [m.here scopes]) where
  apart := by
    refine List.pairwise_append.mpr ⟨h.apart, List.pairwise_singleton .., fun o ho o' ho' he => ?_⟩
    obtain rfl := List.mem_singleton.mp ho'
    obtain ⟨_, _, _, _, _, rfl⟩ := mem_inParts.mp ho
    cases he
  mem_iff position m' := by
    rw [Spot.mention?, hm, Spot.children, ← h.mem_iff]
    constructor
    · rintro ⟨o, ho, hp, rfl⟩
      rcases List.mem_append.mp ho with ho | ho
      · exact .inr ⟨o, ho, hp, rfl⟩
      · obtain rfl := List.mem_singleton.mp ho
        exact .inl ⟨hp.symm, rfl⟩
    · rintro (⟨rfl, he⟩ | ⟨o, ho, h⟩)
      · exact ⟨_, List.mem_append_right _ (List.mem_singleton_self _), rfl, Option.some.inj he⟩
      · exact ⟨o, List.mem_append_left _ ho, h⟩

/-- A superclass is the one occurrence at its spot. -/
theorem superclass (name : Name) (parent : Reference Unit) (scopes : OpenScopes) :
    Noted outer (.superclass name parent.name)
      (inParts 0 [[Mention.here scopes ⟨parent, .variable⟩]]) :=
  inner (.cons (own (.variable parent) .nil rfl scopes) .nil) rfl

end Noted

theorem parameters_noted (outer : List Enclosure) (names : List String)
    (parameters : List Name) :
    AllNoted (parameterSpots outer names parameters) (parameters.map fun _ => []) := by
  induction parameters generalizing names with
  | nil => exact .nil
  | cons p rest ih => exact .cons (.nothing rfl rfl) (ih _)

mutual

/-- The occurrences of an expression are what its spots refer to. -/
theorem Expr.noted (outer : List Enclosure) (scopes : OpenScopes) :
    ∀ e : Expr Unit, Noted outer (.expr e) (e.occurrences scopes)
  | .literal _ => .nothing rfl rfl
  | .grouping inner => .inner (.cons (inner.noted outer scopes) .nil) rfl
  | .unary _ _ operand => .inner (.cons (operand.noted outer scopes) .nil) rfl
  | .binary left _ _ right =>
      .inner (.cons (left.noted outer scopes) (.cons (right.noted outer scopes) .nil)) rfl
  | .logical left _ _ right =>
      .inner (.cons (left.noted outer scopes) (.cons (right.noted outer scopes) .nil)) rfl
  | .variable target => .own (.variable target) .nil rfl scopes
  | .assign target value =>
      .own (.assign target value) (.cons (value.noted outer scopes) .nil) rfl scopes
  | .call callee _ arguments =>
      .inner (.cons (callee.noted outer scopes) (exprs_noted outer scopes arguments)) rfl
  | .get object _ => .inner (.cons (object.noted outer scopes) .nil) rfl
  | .set object _ value =>
      .inner (.cons (value.noted outer scopes) (.cons (object.noted outer scopes) .nil)) rfl
  | .this line binding => .own (.this line binding) .nil rfl scopes
  | .super line method binding => .own (.super line method binding) .nil rfl scopes
  | .lambda _ parameters body =>
      .inner (List.rel_append (parameters_noted _ _ parameters)
        (body_noted _ _ (parameters.map Name.text :: scopes) body)) rfl

theorem exprs_noted (outer : List Enclosure) (scopes : OpenScopes) :
    ∀ es : List (Expr Unit),
      AllNoted (es.map fun e => (outer, .expr e)) (exprsOccurrences scopes es)
  | [] => .nil
  | e :: rest => .cons (e.noted outer scopes) (exprs_noted outer scopes rest)

/-- The occurrences of a statement are what its spots refer to. -/
theorem Stmt.noted (outer : List Enclosure) (scopes : OpenScopes) :
    ∀ s : Stmt Unit, Noted outer (.stmt s) (s.occurrences scopes)
  | .expression value => .inner (.cons (value.noted outer scopes) .nil) rfl
  | .print value => .inner (.cons (value.noted outer scopes) .nil) rfl
  | .var _ none => .inner (.cons (.nothing rfl rfl) .nil) rfl
  | .var _ (some value) =>
      .inner (.cons (.nothing rfl rfl) (.cons (value.noted _ _) .nil)) rfl
  | .block body => .inner (body_noted outer [] ([] :: scopes) body) rfl
  | .ifStmt condition thenBranch elifs none =>
      .inner (.cons (condition.noted outer scopes) (.cons (thenBranch.noted outer scopes)
        (List.rel_append (elifs_noted outer scopes elifs) .nil))) rfl
  | .ifStmt condition thenBranch elifs (some s) =>
      .inner (.cons (condition.noted outer scopes) (.cons (thenBranch.noted outer scopes)
        (List.rel_append (elifs_noted outer scopes elifs)
          (.cons (s.noted outer scopes) .nil)))) rfl
  | .whileStmt condition body =>
      .inner (.cons (condition.noted outer scopes) (.cons (body.noted outer scopes) .nil)) rfl
  | .functionDecl f => .inner (.cons (.nothing rfl rfl) (function_noted outer false _ f)) rfl
  | .returnStmt _ none => .nothing rfl rfl
  | .returnStmt _ (some value) => .inner (.cons (value.noted outer scopes) .nil) rfl
  | .breakStmt _ => .nothing rfl rfl
  | .classDecl _ none methods =>
      .inner (.cons (.nothing rfl rfl) (methods_noted _ _ methods)) rfl
  | .classDecl name (some parent) methods =>
      .inner (.cons (.nothing rfl rfl) (.cons (.superclass name parent _)
        (methods_noted _ _ methods))) rfl

theorem body_noted (outer : List Enclosure) (names : List String) (scopes : OpenScopes) :
    ∀ body : List (Stmt Unit),
      AllNoted (bodySpots outer names body) (bodyOccurrences scopes body)
  | [] => .nil
  | s :: rest => .cons (s.noted _ scopes) (body_noted outer _ _ rest)

theorem elifs_noted (outer : List Enclosure) (scopes : OpenScopes) :
    ∀ branches : List (Elif Unit),
      AllNoted (elifSpots outer branches) (elifsOccurrences scopes branches)
  | [] => .nil
  | .mk condition body :: rest =>
      .cons (condition.noted outer scopes) (.cons (body.noted outer scopes)
        (elifs_noted outer scopes rest))

theorem function_noted (outer : List Enclosure) (isInitializer : Bool) (scopes : OpenScopes) :
    ∀ f : Function Unit, AllNoted (functionSpots outer isInitializer f.parameters f.body)
      (functionOccurrences scopes f)
  | .mk _ parameters body =>
      List.rel_append (parameters_noted _ _ parameters)
        (body_noted _ _ (parameters.map Name.text :: scopes) body)

theorem methods_noted (outer : List Enclosure) (scopes : OpenScopes) :
    ∀ methods : List (Function Unit),
      AllNoted (methods.map fun f => (outer, .method f)) (methodsOccurrences scopes methods)
  | [] => .nil
  | f :: rest => .cons (.inner (function_noted outer _ scopes f) rfl)
      (methods_noted outer scopes rest)

end

/-- The occurrences of a program are what its spots refer to. -/
theorem program_noted (p : Program Unit) : AllNoted (topSpots p) (bodyOccurrences [] p) := by
  suffices h : ∀ scopes, AllNoted (topSpots p) (bodyOccurrences scopes p) from h []
  induction p with
  | nil => exact fun _ => .nil
  | cons s rest ih => exact fun scopes => .cons (s.noted [] scopes) (ih _)

/-- No two occurrences of a program share a position. -/
theorem apart_programOccurrences (p : Program Unit) : Apart (programOccurrences p) :=
  (program_noted p).apart

/-- The references among the spots of a program are its occurrences. -/
theorem exists_mem_programOccurrences (p : Program Unit) (position : Position)
    (m : Mention Unit) :
    (∃ o ∈ programOccurrences p, o.position = position ∧ o.toMention = m) ↔
      RefersAt (topSpots p) position m :=
  (program_noted p).mem_iff position m

end ClassScript
