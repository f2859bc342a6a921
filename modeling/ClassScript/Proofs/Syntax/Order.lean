import ClassScript.Proofs.Syntax.Parts

/-!
# Ordered trees

A program is *ordered* if no reference to a name lies in a local scope that declares
the name only afterwards.  The initializer of a variable comes before the variable,
the body of a function or a class after its name.

The functions below go down a tree with the names that are declared later in some
local scope around it.  `Node.ordered_part` is the step from a node to its parts.
-/

namespace ClassScript

variable {β : Type}

mutual

/-- The expression refers to none of the names, and it is ordered itself. -/
def Expr.ordered (later : List String) : Expr β → Bool
  | .literal _ => true
  | .grouping inner => inner.ordered later
  | .unary _ _ operand => operand.ordered later
  | .binary left _ _ right => left.ordered later && right.ordered later
  | .logical left _ _ right => left.ordered later && right.ordered later
  | .variable target => target.name.text ∉ later
  | .assign target value => target.name.text ∉ later && value.ordered later
  | .call callee _ arguments => callee.ordered later && orderedExprs later arguments
  | .get object _ => object.ordered later
  | .set object _ value => object.ordered later && value.ordered later
  | .this _ _ => true
  | .super _ _ _ => true
  | .lambda _ _ body => orderedStmts true later body

/-- The same for each expression of a list. -/
def orderedExprs (later : List String) : List (Expr β) → Bool
  | [] => true
  | e :: rest => e.ordered later && orderedExprs later rest

/-- The same for a statement, which may stand in a local scope. -/
def Stmt.ordered (isLocal : Bool) (later : List String) : Stmt β → Bool
  | .expression value => value.ordered later
  | .print value => value.ordered later
  | .var _ none => true
  | .var name (some value) => value.ordered (if isLocal then name.text :: later else later)
  | .block body => orderedStmts true later body
  | .ifStmt condition thenBranch elifs elseBranch =>
      condition.ordered later && thenBranch.ordered isLocal later &&
        orderedElifs isLocal later elifs && orderedElse isLocal later elseBranch
  | .whileStmt condition body => condition.ordered later && body.ordered isLocal later
  | .functionDecl f => f.ordered later
  | .returnStmt _ none => true
  | .returnStmt _ (some value) => value.ordered later
  | .breakStmt _ => true
  | .classDecl _ none methods => orderedFunctions later methods
  | .classDecl _ (some parent) methods =>
      parent.name.text ∉ later && orderedFunctions later methods

/-- The same for statements in sequence.  What a local statement refers to must not
be declared by those behind it. -/
def orderedStmts (isLocal : Bool) (later : List String) : List (Stmt β) → Bool
  | [] => true
  | s :: rest =>
      s.ordered isLocal (if isLocal then declaredNames rest ++ later else later) &&
        orderedStmts isLocal later rest

/-- The same for the branches of a choice. -/
def orderedElifs (isLocal : Bool) (later : List String) : List (Elif β) → Bool
  | [] => true
  | .mk condition body :: rest =>
      condition.ordered later && body.ordered isLocal later && orderedElifs isLocal later rest

/-- The same for the last branch of a choice. -/
def orderedElse (isLocal : Bool) (later : List String) : Option (Stmt β) → Bool
  | none => true
  | some s => s.ordered isLocal later

/-- The same for the body of a function. -/
def Function.ordered (later : List String) : Function β → Bool
  | .mk _ _ body => orderedStmts true later body

/-- The same for each method of a list. -/
def orderedFunctions (later : List String) : List (Function β) → Bool
  | [] => true
  | f :: rest => f.ordered later && orderedFunctions later rest

end

/-- The same for a node. -/
def Node.ordered (isLocal : Bool) (later : List String) : Node β → Bool
  | .expr e => e.ordered later
  | .exprs es => orderedExprs later es
  | .stmt s => s.ordered isLocal later
  | .stmts body => orderedStmts isLocal later body
  | .elifs branches elseBranch =>
      orderedElifs isLocal later branches && orderedElse isLocal later elseBranch
  | .loop condition body => condition.ordered later && body.ordered isLocal later

/-- A whole program is ordered. -/
def Program.ordered (p : Program β) : Bool := orderedStmts false [] p

/-! ## Parts -/

section

variable {isLocal : Bool} {later : List String}

theorem Expr.ordered_part {e : Expr β} (he : e.ordered later = true) :
    ∀ n ∈ e.parts, n.ordered isLocal later = true := by
  cases e <;> simp_all [Expr.parts, Expr.ordered, Node.ordered]

/-- How a part of a node is ordered.  The names that are declared later for the part
as well are some of those that the node declares, and in a local scope all of them
are accounted for: they are declared by the part, or later, or by the statement that
the part stands behind. -/
structure Node.OrderedPart (isLocal : Bool) (later more : List String) (n n' : Node β) :
    Prop where
  ordered : n'.ordered isLocal (more ++ later) = true
  declared : ∀ x ∈ more, x ∈ n.declared
  accounted : isLocal = true → ∀ x ∈ n.declared, x ∈ more ∨ x ∈ n'.declared ∨
    ∃ s rest, n = .stmts (s :: rest) ∧ n' = .stmts rest ∧ x ∈ declaredNames [s]

/-- A part of a node that declares nothing. -/
theorem Node.OrderedPart.of_nil {n n' : Node β} (ho : n'.ordered isLocal later = true)
    (hd : n.declared = []) : OrderedPart isLocal later [] n n' := by
  refine ⟨ho, nofun, fun _ x hx => ?_⟩
  rw [hd] at hx
  cases hx

theorem Stmt.ordered_part {s : Stmt β} (hs : s.ordered isLocal later = true) {n : Node β}
    (hn : n ∈ s.parts) : ∃ more, Node.OrderedPart isLocal later more (.stmt s) n := by
  cases s with
  | var name initializer =>
    cases initializer with
    | none => cases hn
    | some value =>
      obtain rfl := List.mem_singleton.mp hn
      cases isLocal with
      | false => exact ⟨[], hs, nofun, nofun⟩
      | true => exact ⟨[name.text], hs, fun x hx => hx, fun _ x hx => .inl hx⟩
  | expression value =>
    obtain rfl := List.mem_singleton.mp hn
    exact ⟨[], .of_nil hs rfl⟩
  | print value =>
    obtain rfl := List.mem_singleton.mp hn
    exact ⟨[], .of_nil hs rfl⟩
  | ifStmt condition thenBranch elifs elseBranch =>
    simp only [ordered, Bool.and_eq_true] at hs
    obtain ⟨⟨⟨hc, ht⟩, he⟩, hl⟩ := hs
    simp only [parts, List.mem_cons, List.not_mem_nil, or_false] at hn
    rcases hn with rfl | rfl | rfl
    · exact ⟨[], .of_nil hc rfl⟩
    · exact ⟨[], .of_nil ht rfl⟩
    · exact ⟨[], .of_nil (by simp [Node.ordered, he, hl]) rfl⟩
  | whileStmt condition body =>
    obtain rfl := List.mem_singleton.mp hn
    exact ⟨[], .of_nil hs rfl⟩
  | returnStmt line value =>
    cases value with
    | none => cases hn
    | some value =>
      obtain rfl := List.mem_singleton.mp hn
      exact ⟨[], .of_nil hs rfl⟩
  | _ => cases hn

/-- The parts of an ordered node are ordered. -/
theorem Node.ordered_part {n n' : Node β} (hn : n.ordered isLocal later = true)
    (hp : n' ∈ n.parts) : ∃ more, OrderedPart isLocal later more n n' := by
  cases n with
  | expr e => exact ⟨[], .of_nil (Expr.ordered_part hn n' hp) rfl⟩
  | stmt s => exact Stmt.ordered_part hn hp
  | exprs es =>
    cases es with
    | nil => cases hp
    | cons e rest =>
      simp only [ordered, orderedExprs, Bool.and_eq_true] at hn
      simp only [parts, List.mem_cons, List.not_mem_nil, or_false] at hp
      rcases hp with rfl | rfl
      · exact ⟨[], .of_nil hn.1 rfl⟩
      · exact ⟨[], .of_nil hn.2 rfl⟩
  | stmts body =>
    cases body with
    | nil => cases hp
    | cons s rest =>
      simp only [ordered, orderedStmts, Bool.and_eq_true] at hn
      simp only [parts, List.mem_cons, List.not_mem_nil, or_false] at hp
      rcases hp with rfl | rfl
      · cases isLocal with
        | false => exact ⟨[], hn.1, nofun, nofun⟩
        | true =>
          refine ⟨declaredNames rest, hn.1, fun x hx => ?_, fun _ x hx => ?_⟩
          · rw [declared, declaredNames_cons]
            exact List.mem_append_right _ hx
          · rw [declared, declaredNames_cons] at hx
            exact (List.mem_append.mp hx).elim (fun h => .inr (.inl h)) .inl
      · refine ⟨[], hn.2, nofun, fun _ x hx => ?_⟩
        rw [declared, declaredNames_cons] at hx
        exact (List.mem_append.mp hx).elim (fun h => .inr (.inr ⟨s, rest, rfl, rfl, h⟩))
          fun h => .inr (.inl h)
  | elifs branches elseBranch =>
    rcases branches with _ | ⟨⟨condition, body⟩, rest⟩
    · cases elseBranch with
      | none => cases hp
      | some s =>
        obtain rfl := List.mem_singleton.mp hp
        exact ⟨[], .of_nil (by simpa [ordered, orderedElifs, orderedElse] using hn) rfl⟩
    · simp only [ordered, orderedElifs, Bool.and_eq_true] at hn
      simp only [parts, List.mem_cons, List.not_mem_nil, or_false] at hp
      rcases hp with rfl | rfl | rfl
      · exact ⟨[], .of_nil hn.1.1.1 rfl⟩
      · exact ⟨[], .of_nil hn.1.1.2 rfl⟩
      · exact ⟨[], .of_nil (by simp [ordered, hn.1.2, hn.2]) rfl⟩
  | loop condition body =>
    have ho := hn
    simp only [ordered, Bool.and_eq_true] at hn
    simp only [parts, List.mem_cons, List.not_mem_nil, or_false] at hp
    rcases hp with rfl | rfl | rfl
    · exact ⟨[], .of_nil hn.1 rfl⟩
    · exact ⟨[], .of_nil hn.2 rfl⟩
    · exact ⟨[], .of_nil ho rfl⟩

end

end ClassScript
