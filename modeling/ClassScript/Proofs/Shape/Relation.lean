import ClassScript.Proofs.Loops.Direct

/-!
# Trees of different shape

Two resolved trees that do the same need not be the same.  They may differ in one of two
ways (`Reshaping`).

* The first tree has a block for each *round* of a loop with an increment, where the second
  one keeps the increment apart.  So the first tree has *extra* scopes.  All others are
  *shared*, and a reference is bound to a shared scope in both trees, past the extra scopes
  in the first one (`Shifts`).
* The second tree has choices in the last branch of choices where the first one has further
  branches.

The relation has the marks of the open scopes as an index, the innermost first.
-/

namespace ClassScript

/-! ## Scopes -/

/-- How two trees differ. -/
inductive Reshaping where
  /-- Rounds of loops are blocks in the first tree. -/
  | rounds
  /-- Further branches are choices of their own in the second tree. -/
  | chains
deriving DecidableEq, Repr

/-- Whether a scope of the first tree is one of the second tree. -/
inductive ScopeMark where
  | shared
  | extra
deriving DecidableEq, Repr

/-- A shared scope that is some distance away in the first tree, and its distance in the
second one.  Distances past the outermost scope are the same from there on. -/
inductive Shifts : List ScopeMark → Nat → Nat → Prop where
  | outermost (d : Nat) : Shifts [] d d
  | here {marks : List ScopeMark} : Shifts (.shared :: marks) 0 0
  | out {marks : List ScopeMark} {d d' : Nat} : Shifts marks d d' →
      Shifts (.shared :: marks) (d + 1) (d' + 1)
  | skip {marks : List ScopeMark} {d d' : Nat} : Shifts marks d d' →
      Shifts (.extra :: marks) (d + 1) d'

/-- Without extra scopes the distances are the same. -/
theorem Shifts.refl {marks : List ScopeMark} (h : ∀ mark ∈ marks, mark = .shared) :
    ∀ d, Shifts marks d d := by
  induction marks with
  | nil => exact .outermost
  | cons mark marks ih =>
    obtain ⟨rfl, hrest⟩ := List.forall_mem_cons.mp h
    intro d
    cases d with
    | zero => exact .here
    | succ d => exact .out (ih hrest d)

/-- What a reference is bound to in both trees. -/
inductive Binding.Shifted (marks : List ScopeMark) : Binding → Binding → Prop where
  | global : Shifted marks .global .global
  | «local» {d d' : Nat} : Shifts marks d d' → Shifted marks (.local d) (.local d')

/-- What `super` is bound to in both trees.  The scope just inside, which holds the
receiver, is shared too. -/
inductive Binding.ShiftedSuper (marks : List ScopeMark) : Binding → Binding → Prop where
  | global : ShiftedSuper marks .global .global
  | «local» {d d' : Nat} : Shifts marks d d' → Shifts marks (d - 1) (d' - 1) →
      ShiftedSuper marks (.local d) (.local d')

/-- A name in use in both trees. -/
inductive Reference.Shifted (marks : List ScopeMark) :
    Reference Binding → Reference Binding → Prop where
  | mk {b b' : Binding} (name : Name) : Binding.Shifted marks b b' →
      Shifted marks ⟨name, b⟩ ⟨name, b'⟩

/-- The marks inside the body of a class. -/
def ScopeMark.ofClass (derived : Bool) (marks : List ScopeMark) : List ScopeMark :=
  .shared :: if derived then .shared :: marks else marks

/-! ## Trees -/

mutual

/-- Expressions of different shape. -/
inductive Expr.Reshaped (k : Reshaping) :
    List ScopeMark → Expr Binding → Expr Binding → Prop where
  | literal {marks : List ScopeMark} (value : Literal) :
      Expr.Reshaped k marks (.literal value) (.literal value)
  | grouping {marks : List ScopeMark} {inner inner' : Expr Binding} :
      Expr.Reshaped k marks inner inner' →
      Expr.Reshaped k marks (.grouping inner) (.grouping inner')
  | unary {marks : List ScopeMark} {operand operand' : Expr Binding} (op : UnaryOp) (line : Nat) :
      Expr.Reshaped k marks operand operand' →
      Expr.Reshaped k marks (.unary op line operand) (.unary op line operand')
  | binary {marks : List ScopeMark} {left left' right right' : Expr Binding} (op : BinaryOp)
      (line : Nat) : Expr.Reshaped k marks left left' → Expr.Reshaped k marks right right' →
      Expr.Reshaped k marks (.binary left op line right) (.binary left' op line right')
  | logical {marks : List ScopeMark} {left left' right right' : Expr Binding} (op : LogicalOp)
      (line : Nat) : Expr.Reshaped k marks left left' → Expr.Reshaped k marks right right' →
      Expr.Reshaped k marks (.logical left op line right) (.logical left' op line right')
  | variable {marks : List ScopeMark} {target target' : Reference Binding} :
      Reference.Shifted marks target target' →
      Expr.Reshaped k marks (.variable target) (.variable target')
  | assign {marks : List ScopeMark} {target target' : Reference Binding}
      {value value' : Expr Binding} : Reference.Shifted marks target target' →
      Expr.Reshaped k marks value value' →
      Expr.Reshaped k marks (.assign target value) (.assign target' value')
  | call {marks : List ScopeMark} {callee callee' : Expr Binding}
      {arguments arguments' : List (Expr Binding)} (line : Nat) :
      Expr.Reshaped k marks callee callee' → ExprsReshaped k marks arguments arguments' →
      Expr.Reshaped k marks (.call callee line arguments) (.call callee' line arguments')
  | get {marks : List ScopeMark} {object object' : Expr Binding} (property : Name) :
      Expr.Reshaped k marks object object' →
      Expr.Reshaped k marks (.get object property) (.get object' property)
  | set {marks : List ScopeMark} {object object' value value' : Expr Binding} (field : Name) :
      Expr.Reshaped k marks object object' → Expr.Reshaped k marks value value' →
      Expr.Reshaped k marks (.set object field value) (.set object' field value')
  | this {marks : List ScopeMark} {b b' : Binding} (line : Nat) : Binding.Shifted marks b b' →
      Expr.Reshaped k marks (.this line b) (.this line b')
  | super {marks : List ScopeMark} {b b' : Binding} (line : Nat) (method : Name) :
      Binding.ShiftedSuper marks b b' →
      Expr.Reshaped k marks (.super line method b) (.super line method b')
  | lambda {marks : List ScopeMark} {body body' : List (Stmt Binding)} (line : Nat)
      (parameters : List Name) : StmtsReshaped k (.shared :: marks) body body' →
      Expr.Reshaped k marks (.lambda line parameters body) (.lambda line parameters body')

/-- Arguments of different shape. -/
inductive ExprsReshaped (k : Reshaping) :
    List ScopeMark → List (Expr Binding) → List (Expr Binding) → Prop where
  | nil {marks : List ScopeMark} : ExprsReshaped k marks [] []
  | cons {marks : List ScopeMark} {e e' : Expr Binding} {rest rest' : List (Expr Binding)} :
      Expr.Reshaped k marks e e' → ExprsReshaped k marks rest rest' →
      ExprsReshaped k marks (e :: rest) (e' :: rest')

/-- Statements of different shape.  A declaration stands in a shared scope. -/
inductive Stmt.Reshaped (k : Reshaping) :
    List ScopeMark → Stmt Binding → Stmt Binding → Prop where
  | expression {marks : List ScopeMark} {value value' : Expr Binding} :
      Expr.Reshaped k marks value value' →
      Stmt.Reshaped k marks (.expression value) (.expression value')
  | print {marks : List ScopeMark} {value value' : Expr Binding} :
      Expr.Reshaped k marks value value' → Stmt.Reshaped k marks (.print value) (.print value')
  | varNone {marks : List ScopeMark} (name : Name) : Shifts marks 0 0 →
      Stmt.Reshaped k marks (.var name none) (.var name none)
  | var {marks : List ScopeMark} {value value' : Expr Binding} (name : Name) :
      Shifts marks 0 0 → Expr.Reshaped k marks value value' →
      Stmt.Reshaped k marks (.var name (some value)) (.var name (some value'))
  | block {marks : List ScopeMark} {body body' : List (Stmt Binding)} :
      StmtsReshaped k (.shared :: marks) body body' →
      Stmt.Reshaped k marks (.block body) (.block body')
  | ifStmt {marks : List ScopeMark} {condition condition' : Expr Binding}
      {thenBranch thenBranch' : Stmt Binding} {elifs elifs' : List (Elif Binding)}
      {elseBranch elseBranch' : Option (Stmt Binding)} :
      Expr.Reshaped k marks condition condition' →
      Stmt.Reshaped k marks thenBranch thenBranch' →
      ChainReshaped k marks elifs elseBranch elifs' elseBranch' →
      Stmt.Reshaped k marks (.ifStmt condition thenBranch elifs elseBranch)
        (.ifStmt condition' thenBranch' elifs' elseBranch')
  | whileStmt {marks : List ScopeMark} {condition condition' : Expr Binding}
      {body body' : Stmt Binding} : Expr.Reshaped k marks condition condition' →
      BodyReshaped k marks body body' →
      Stmt.Reshaped k marks (.whileStmt condition body) (.whileStmt condition' body')
  | functionDecl {marks : List ScopeMark} {f f' : Function Binding} : Shifts marks 0 0 →
      Function.Reshaped k marks f f' →
      Stmt.Reshaped k marks (.functionDecl f) (.functionDecl f')
  | returnNone {marks : List ScopeMark} (line : Nat) :
      Stmt.Reshaped k marks (.returnStmt line none) (.returnStmt line none)
  | returnStmt {marks : List ScopeMark} {value value' : Expr Binding} (line : Nat) :
      Expr.Reshaped k marks value value' →
      Stmt.Reshaped k marks (.returnStmt line (some value)) (.returnStmt line (some value'))
  | breakStmt {marks : List ScopeMark} (line : Nat) :
      Stmt.Reshaped k marks (.breakStmt line) (.breakStmt line)
  | classDecl {marks : List ScopeMark} {superclass superclass' : Option (Reference Binding)}
      {methods methods' : List (Function Binding)} (name : Name) : Shifts marks 0 0 →
      Option.Rel (Reference.Shifted marks) superclass superclass' →
      FunctionsReshaped k (ScopeMark.ofClass superclass.isSome marks) methods methods' →
      Stmt.Reshaped k marks (.classDecl name superclass methods)
        (.classDecl name superclass' methods')

/-- What a loop repeats.  A round is a block of an extra scope in the first tree. -/
inductive BodyReshaped (k : Reshaping) :
    List ScopeMark → Stmt Binding → Stmt Binding → Prop where
  | whole {marks : List ScopeMark} {s s' : Stmt Binding} :
      (k = .rounds → s'.isRound = false) → Stmt.Reshaped k marks s s' →
      BodyReshaped k marks s s'
  | round {marks : List ScopeMark} {body : List (Stmt Binding)} {f' : Function Binding} :
      k = .rounds → (Stmt.functionDecl f').isRound = true →
      StmtsReshaped k (.extra :: marks) body f'.body →
      BodyReshaped k marks (.block body) (.functionDecl f')

/-- Sequences of statements of different shape. -/
inductive StmtsReshaped (k : Reshaping) :
    List ScopeMark → List (Stmt Binding) → List (Stmt Binding) → Prop where
  | nil {marks : List ScopeMark} : StmtsReshaped k marks [] []
  | cons {marks : List ScopeMark} {s s' : Stmt Binding} {rest rest' : List (Stmt Binding)} :
      Stmt.Reshaped k marks s s' → StmtsReshaped k marks rest rest' →
      StmtsReshaped k marks (s :: rest) (s' :: rest')

/-- The branches that a choice has besides its first one, the last one apart.  A branch may
be a choice in the last branch. -/
inductive ChainReshaped (k : Reshaping) : List ScopeMark →
    List (Elif Binding) → Option (Stmt Binding) →
    List (Elif Binding) → Option (Stmt Binding) → Prop where
  | none {marks : List ScopeMark} : ChainReshaped k marks [] none [] none
  | some {marks : List ScopeMark} {s s' : Stmt Binding} : Stmt.Reshaped k marks s s' →
      ChainReshaped k marks [] (some s) [] (some s')
  | cons {marks : List ScopeMark} {condition condition' : Expr Binding} {body body' : Stmt Binding}
      {rest rest' : List (Elif Binding)} {last last' : Option (Stmt Binding)} :
      Expr.Reshaped k marks condition condition' → Stmt.Reshaped k marks body body' →
      ChainReshaped k marks rest last rest' last' →
      ChainReshaped k marks (.mk condition body :: rest) last
        (.mk condition' body' :: rest') last'
  | nest {marks : List ScopeMark} {condition condition' : Expr Binding} {body body' : Stmt Binding}
      {rest rest' : List (Elif Binding)} {last last' : Option (Stmt Binding)} :
      k = .chains → Expr.Reshaped k marks condition condition' →
      Stmt.Reshaped k marks body body' → ChainReshaped k marks rest last rest' last' →
      ChainReshaped k marks (.mk condition body :: rest) last
        [] (some (.ifStmt condition' body' rest' last'))

/-- Functions of different shape. -/
inductive Function.Reshaped (k : Reshaping) :
    List ScopeMark → Function Binding → Function Binding → Prop where
  | mk {marks : List ScopeMark} {body body' : List (Stmt Binding)} (name : Name)
      (parameters : List Name) : StmtsReshaped k (.shared :: marks) body body' →
      Function.Reshaped k marks (.mk name parameters body) (.mk name parameters body')

/-- Methods of different shape. -/
inductive FunctionsReshaped (k : Reshaping) :
    List ScopeMark → List (Function Binding) → List (Function Binding) → Prop where
  | nil {marks : List ScopeMark} : FunctionsReshaped k marks [] []
  | cons {marks : List ScopeMark} {f f' : Function Binding}
      {rest rest' : List (Function Binding)} : Function.Reshaped k marks f f' →
      FunctionsReshaped k marks rest rest' →
      FunctionsReshaped k marks (f :: rest) (f' :: rest')

end

end ClassScript
