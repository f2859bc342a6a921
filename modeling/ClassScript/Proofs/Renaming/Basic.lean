import ClassScript.Proofs.Scope.Places
import ClassScript.Scope.Resolution

/-!
# Another name for a local variable

A `Respelling` gives a variable of a local scope another name.  The scope is told by the
position of the block or function that opens it, and in a program without violations it
declares a name only once.

To respell a program is to resolve it first.  The name then changes where the variable is
declared and in exactly those references that resolution binds to its scope
(`Program.respell`).  A function, a class, a method and a property keep their names.

Whether a scope declares a variable is decided by a look at its position, and a name that
does not occur is told by a search that stops where no spots are left
(`not_occursIn_of_depth`).
-/

namespace ClassScript

/-- Another name for a variable of a local scope. -/
structure Respelling where
  /-- The position of the block or function that opens the scope. -/
  scope : Position
  /-- The name of the variable. -/
  old : String
  /-- Its new name. -/
  new : String

/-- A name that stands for a variable of the scope, if it is marked, or else for another
one. -/
def Respelling.text (c : Respelling) (marked : Bool) (text : String) : String :=
  if marked ∧ text = c.old then c.new else text

/-- A name where it is declared, in the scope if it is marked. -/
def Name.respell (c : Respelling) (marked : Bool) (name : Name) : Name :=
  { name with text := c.text marked name.text }

/-- Whether a reference is bound to a marked scope.  There is a mark for each open local
scope, the innermost first. -/
def Binding.marked (marks : List Bool) : Binding → Bool
  | .global => false
  | .local distance => marks.getD distance false

/-- A variable where it is used. -/
def Reference.respell (c : Respelling) (marks : List Bool) (r : Reference Binding) :
    Reference Unit :=
  ⟨r.name.respell c (r.binding.marked marks), ()⟩

/-- The marks inside the body of a class. -/
def classMarks (derived : Bool) (marks : List Bool) : List Bool :=
  false :: if derived then false :: marks else marks

mutual

/-- An expression at a position. -/
def Expr.respell (c : Respelling) (marks : List Bool) (position : Position) :
    Expr Binding → Expr Unit
  | .literal value => .literal value
  | .grouping inner => .grouping (inner.respell c marks (position ++ [0]))
  | .unary op line operand => .unary op line (operand.respell c marks (position ++ [0]))
  | .binary left op line right =>
    .binary (left.respell c marks (position ++ [0])) op line
      (right.respell c marks (position ++ [1]))
  | .logical left op line right =>
    .logical (left.respell c marks (position ++ [0])) op line
      (right.respell c marks (position ++ [1]))
  | .variable target => .variable (target.respell c marks)
  | .assign target value =>
    .assign (target.respell c marks) (value.respell c marks (position ++ [0]))
  | .call callee line arguments =>
    .call (callee.respell c marks (position ++ [0])) line
      (respellExprs c marks position 1 arguments)
  | .get object property => .get (object.respell c marks (position ++ [0])) property
  | .set object field value =>
    .set (object.respell c marks (position ++ [1])) field
      (value.respell c marks (position ++ [0]))
  | .this line _ => .this line ()
  | .super line method _ => .super line method ()
  | .lambda line parameters body =>
    let marked := decide (position = c.scope)
    .lambda line (parameters.map (Name.respell c marked))
      (respellStmts c (marked :: marks) position parameters.length body)

/-- Arguments, of which the first one is the given part of what is at the position. -/
def respellExprs (c : Respelling) (marks : List Bool) (position : Position) :
    (part : Nat) → List (Expr Binding) → List (Expr Unit)
  | _, [] => []
  | part, e :: rest =>
    e.respell c marks (position ++ [part]) :: respellExprs c marks position (part + 1) rest

/-- A statement at a position. -/
def Stmt.respell (c : Respelling) (marks : List Bool) (position : Position) :
    Stmt Binding → Stmt Unit
  | .expression value => .expression (value.respell c marks (position ++ [0]))
  | .print value => .print (value.respell c marks (position ++ [0]))
  | .var name none => .var (name.respell c (marks.headD false)) none
  | .var name (some value) =>
    .var (name.respell c (marks.headD false)) (some (value.respell c marks (position ++ [1])))
  | .block body =>
    .block (respellStmts c (decide (position = c.scope) :: marks) position 0 body)
  | .ifStmt condition thenBranch elifs elseBranch =>
    .ifStmt (condition.respell c marks (position ++ [0]))
      (thenBranch.respell c marks (position ++ [1])) (respellElifs c marks position 2 elifs)
      (match elseBranch with
        | none => none
        | some s => some (s.respell c marks (position ++ [2 + 2 * elifs.length])))
  | .whileStmt condition body =>
    .whileStmt (condition.respell c marks (position ++ [0]))
      (body.respell c marks (position ++ [1]))
  | .functionDecl f => .functionDecl (f.respell c marks position 1)
  | .returnStmt line none => .returnStmt line none
  | .returnStmt line (some value) =>
    .returnStmt line (some (value.respell c marks (position ++ [0])))
  | .breakStmt line => .breakStmt line
  | .classDecl name superclass methods =>
    .classDecl name (superclass.map (Reference.respell c marks))
      (respellMethods c (classMarks superclass.isSome marks) position
        (if superclass.isSome then 2 else 1) methods)

/-- Statements, of which the first one is the given part of what is at the position. -/
def respellStmts (c : Respelling) (marks : List Bool) (position : Position) :
    (part : Nat) → List (Stmt Binding) → List (Stmt Unit)
  | _, [] => []
  | part, s :: rest =>
    s.respell c marks (position ++ [part]) :: respellStmts c marks position (part + 1) rest

/-- Branches of a choice, of which the first condition is the given part. -/
def respellElifs (c : Respelling) (marks : List Bool) (position : Position) :
    (part : Nat) → List (Elif Binding) → List (Elif Unit)
  | _, [] => []
  | part, .mk condition body :: rest =>
    .mk (condition.respell c marks (position ++ [part]))
      (body.respell c marks (position ++ [part + 1])) ::
        respellElifs c marks position (part + 2) rest

/-- A function, of which the first parameter or statement is the given part. -/
def Function.respell (c : Respelling) (marks : List Bool) (position : Position) (part : Nat) :
    Function Binding → Function Unit
  | .mk name parameters body =>
    let marked := decide (position = c.scope)
    .mk name (parameters.map (Name.respell c marked))
      (respellStmts c (marked :: marks) position (part + parameters.length) body)

/-- Methods, of which the first one is the given part of what is at the position. -/
def respellMethods (c : Respelling) (marks : List Bool) (position : Position) :
    (part : Nat) → List (Function Binding) → List (Function Unit)
  | _, [] => []
  | part, f :: rest =>
    f.respell c marks (position ++ [part]) 0 :: respellMethods c marks position (part + 1) rest

end

/-- The program with another name for the variable. -/
def Program.respell (c : Respelling) (p : Program Unit) : Program Unit :=
  respellStmts c [] [] 0 (Resolution.ofProgram p).program

/-! ## What may be respelled -/

/-- A parameter or variable of the given name is declared in the local scope that is opened at
a position. -/
def DeclaresVariable (p : Program Unit) (scope : Position) (x : String) : Prop :=
  ∃ outer spot parameters body, At (topSpots p) scope outer spot ∧
    spot.opens = some (parameters, body) ∧
    ((∃ name ∈ parameters, name.text = x) ∨
      ∃ name initializer, Stmt.var name initializer ∈ body ∧ name.text = x)

/-- The names that stand at a spot itself. -/
def Spot.names : Spot → List String
  | .expr (.variable target) => [target.name.text]
  | .expr (.assign target _) => [target.name.text]
  | .expr (.get _ property) => [property.text]
  | .expr (.set _ field _) => [field.text]
  | .expr (.this _ _) => ["this"]
  | .expr (.super _ inherited _) => ["super", inherited.text]
  | .method f => [f.name.text]
  | .declared name => [name.text]
  | .superclass _ parent => [parent.text]
  | _ => []

/-- A name occurs somewhere in a program. -/
def OccursIn (p : Program Unit) (y : String) : Prop :=
  ∃ position outer spot, At (topSpots p) position outer spot ∧ y ∈ spot.names

/-! ### Checks -/

/-- The spot at a position, if there is one. -/
def spotAt? (spots : Spots) : Position → Option (List Enclosure × Spot)
  | [] => none
  | [i] => spots[i]?
  | i :: next :: rest =>
    match spots[i]? with
    | none => none
    | some (outer, spot) => spotAt? (spot.children outer) (next :: rest)

theorem at_iff_spotAt? {outer : List Enclosure} {spot : Spot} :
    ∀ {position : Position} {spots : Spots},
      At spots position outer spot ↔ spotAt? spots position = some (outer, spot)
  | [], _ => ⟨fun h => absurd rfl h.position_ne_nil, nofun⟩
  | [i], spots => by
    constructor
    · intro h
      cases h with
      | here hi => exact hi
      | inside _ h => exact absurd rfl h.position_ne_nil
    · exact .here
  | i :: next :: rest, spots => by
    constructor
    · intro h
      cases h with
      | inside hi h =>
        rw [spotAt?, hi]
        exact at_iff_spotAt?.mp h
    · intro h
      rw [spotAt?] at h
      split at h
      · cases h
      · rename_i hi
        exact .inside hi (at_iff_spotAt?.mpr h)

/-- The name of the variable that a statement declares. -/
def Stmt.varName? : Stmt Unit → Option Name
  | .var name _ => some name
  | _ => none

theorem Stmt.varName?_eq_some {s : Stmt Unit} {name : Name} :
    s.varName? = some name ↔ ∃ initializer, s = .var name initializer := by
  cases s <;> simp [varName?]

instance (p : Program Unit) (scope : Position) (x : String) :
    Decidable (DeclaresVariable p scope x) :=
  decidable_of_iff (∃ entry ∈ (spotAt? (topSpots p) scope).toList, ∃ opened ∈ entry.2.opens.toList,
      (∃ name ∈ opened.1, name.text = x) ∨
        ∃ s ∈ opened.2, ∃ name ∈ s.varName?.toList, name.text = x) <| by
    constructor
    · rintro ⟨⟨outer, spot⟩, hat, ⟨parameters, body⟩, ho, hx⟩
      refine ⟨outer, spot, parameters, body, at_iff_spotAt?.mpr (Option.mem_toList.mp hat),
        Option.mem_toList.mp ho, hx.imp id ?_⟩
      rintro ⟨s, hs, name, hname, htext⟩
      obtain ⟨initializer, rfl⟩ := Stmt.varName?_eq_some.mp (Option.mem_toList.mp hname)
      exact ⟨name, initializer, hs, htext⟩
    · rintro ⟨outer, spot, parameters, body, hat, ho, hx⟩
      refine ⟨(outer, spot), Option.mem_toList.mpr (at_iff_spotAt?.mp hat), (parameters, body),
        Option.mem_toList.mpr ho, hx.imp id ?_⟩
      rintro ⟨name, initializer, hs, htext⟩
      exact ⟨_, hs, name, Option.mem_toList.mpr rfl, htext⟩

/-- The spots that many steps inside the given ones. -/
def spotsAtDepth : (depth : Nat) → Spots → Spots
  | 0, spots => spots
  | depth + 1, spots => spotsAtDepth depth (spots.flatMap fun entry => entry.2.children entry.1)

theorem spotsAtDepth_mono {xs ys : Spots} (h : xs ⊆ ys) (depth : Nat) :
    spotsAtDepth depth xs ⊆ spotsAtDepth depth ys := by
  induction depth generalizing xs ys with
  | zero => exact h
  | succ depth ih =>
    refine ih fun entry he => ?_
    obtain ⟨outer, hmem, he⟩ := List.mem_flatMap.mp he
    exact List.mem_flatMap.mpr ⟨outer, h hmem, he⟩

theorem spotsAtDepth_nil (depth : Nat) : spotsAtDepth depth [] = [] := by
  induction depth with
  | zero => rfl
  | succ depth ih => exact ih

theorem spotsAtDepth_add (depth more : Nat) (spots : Spots) :
    spotsAtDepth (depth + more) spots = spotsAtDepth more (spotsAtDepth depth spots) := by
  induction depth generalizing spots with
  | zero => rw [Nat.zero_add, spotsAtDepth]
  | succ depth ih =>
    rw [Nat.add_right_comm]
    exact ih _

theorem At.mem_spotsAtDepth {spots : Spots} {position : Position} {outer : List Enclosure}
    {spot : Spot} (h : At spots position outer spot) :
    ∃ depth, (outer, spot) ∈ spotsAtDepth depth spots := by
  induction h with
  | here hi => exact ⟨0, List.mem_of_getElem? hi⟩
  | inside hi _ ih =>
    obtain ⟨depth, hmem⟩ := ih
    refine ⟨depth + 1, spotsAtDepth_mono (fun entry he => ?_) depth hmem⟩
    exact List.mem_flatMap.mpr ⟨_, List.mem_of_getElem? hi, he⟩

/-- A name does not occur if it stands at no spot above the depth where all spots end. -/
theorem not_occursIn_of_depth {p : Program Unit} {y : String} (depth : Nat)
    (hend : (spotsAtDepth depth (topSpots p)).isEmpty = true)
    (h : ∀ d < depth, ∀ entry ∈ spotsAtDepth d (topSpots p), y ∉ entry.2.names) :
    ¬ OccursIn p y := by
  rintro ⟨position, outer, spot, hat, hy⟩
  obtain ⟨d, hmem⟩ := hat.mem_spotsAtDepth
  rcases Nat.lt_or_ge d depth with hlt | hge
  · exact h d hlt _ hmem hy
  · obtain ⟨more, rfl⟩ := Nat.exists_eq_add_of_le hge
    rw [spotsAtDepth_add, List.isEmpty_iff.mp hend, spotsAtDepth_nil] at hmem
    exact List.not_mem_nil hmem

end ClassScript
