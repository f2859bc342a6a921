import ClassScript.Scope.Binding
import Mathlib.Data.List.Forall2
import Mathlib.Logic.Function.Basic

/-!
# Trees that differ in the names of local variables

Two resolved trees are related if they are the same but for the names of variables, and the
names of each local scope are changed in one way wherever they are declared and wherever a
reference is bound to that scope.  Each open scope has a `NameMap`, and the stack of these
maps, the innermost first, is an index of the relation.  What happens to the names of a
scope further in is up to that scope.

Functions and classes keep their names, since these are printed.
-/

namespace ClassScript

/-- A change of the names of a scope, which keeps different names apart. -/
structure NameMap where
  /-- The new name of a name. -/
  map : String → String
  injective : Function.Injective map
  map_this : map "this" = "this"
  map_super : map "super" = "super"

namespace NameMap

instance : CoeFun NameMap fun _ => String → String := ⟨map⟩

/-- The change that changes nothing. -/
def keep : NameMap := ⟨id, Function.injective_id, rfl, rfl⟩

instance : Inhabited NameMap := ⟨keep⟩

@[simp] theorem keep_apply (x : String) : keep x = x := rfl

/-- The change for the scope that many steps out.  The globals keep their names. -/
def ofDistance (maps : List NameMap) (distance : Nat) : NameMap := maps.getD distance keep

@[simp] theorem ofDistance_nil (distance : Nat) : ofDistance [] distance = keep := rfl

/-- The change for the scope that a reference is bound to. -/
def ofBinding (maps : List NameMap) : Binding → NameMap
  | .global => keep
  | .local distance => ofDistance maps distance

end NameMap

/-- A name with its text changed. -/
def Name.rename (ρ : NameMap) (name : Name) : Name := { name with text := ρ name.text }

/-- A reference with its name changed as in the scope that it is bound to. -/
def Reference.rename (maps : List NameMap) (r : Reference Binding) : Reference Binding :=
  ⟨r.name.rename (.ofBinding maps r.binding), r.binding⟩

/-- The stack of changes inside the body of a class. -/
def classMaps (derived : Bool) (maps : List NameMap) : List NameMap :=
  .keep :: if derived then .keep :: maps else maps

mutual

/-- Expressions that differ in the names of local variables. -/
inductive Expr.Renamed : List NameMap → Expr Binding → Expr Binding → Prop where
  | literal {maps : List NameMap} (value : Literal) :
      Expr.Renamed maps (.literal value) (.literal value)
  | grouping {maps : List NameMap} {inner inner' : Expr Binding} :
      Expr.Renamed maps inner inner' → Expr.Renamed maps (.grouping inner) (.grouping inner')
  | unary {maps : List NameMap} {operand operand' : Expr Binding} (op : UnaryOp) (line : Nat) :
      Expr.Renamed maps operand operand' →
      Expr.Renamed maps (.unary op line operand) (.unary op line operand')
  | binary {maps : List NameMap} {left left' right right' : Expr Binding} (op : BinaryOp)
      (line : Nat) : Expr.Renamed maps left left' → Expr.Renamed maps right right' →
      Expr.Renamed maps (.binary left op line right) (.binary left' op line right')
  | logical {maps : List NameMap} {left left' right right' : Expr Binding} (op : LogicalOp)
      (line : Nat) : Expr.Renamed maps left left' → Expr.Renamed maps right right' →
      Expr.Renamed maps (.logical left op line right) (.logical left' op line right')
  | variable {maps : List NameMap} (target : Reference Binding) :
      Expr.Renamed maps (.variable target) (.variable (target.rename maps))
  | assign {maps : List NameMap} {value value' : Expr Binding} (target : Reference Binding) :
      Expr.Renamed maps value value' →
      Expr.Renamed maps (.assign target value) (.assign (target.rename maps) value')
  | call {maps : List NameMap} {callee callee' : Expr Binding}
      {arguments arguments' : List (Expr Binding)} (line : Nat) :
      Expr.Renamed maps callee callee' → ExprsRenamed maps arguments arguments' →
      Expr.Renamed maps (.call callee line arguments) (.call callee' line arguments')
  | get {maps : List NameMap} {object object' : Expr Binding} (property : Name) :
      Expr.Renamed maps object object' →
      Expr.Renamed maps (.get object property) (.get object' property)
  | set {maps : List NameMap} {object object' value value' : Expr Binding} (field : Name) :
      Expr.Renamed maps object object' → Expr.Renamed maps value value' →
      Expr.Renamed maps (.set object field value) (.set object' field value')
  | this {maps : List NameMap} (line : Nat) (binding : Binding) :
      Expr.Renamed maps (.this line binding) (.this line binding)
  | super {maps : List NameMap} (line : Nat) (method : Name) (binding : Binding) :
      Expr.Renamed maps (.super line method binding) (.super line method binding)
  | lambda {maps : List NameMap} {body body' : List (Stmt Binding)} (line : Nat)
      (parameters : List Name) (ρ : NameMap) : StmtsRenamed (ρ :: maps) body body' →
      Expr.Renamed maps (.lambda line parameters body)
        (.lambda line (parameters.map (Name.rename ρ)) body')

/-- Arguments that differ in the names of local variables. -/
inductive ExprsRenamed : List NameMap → List (Expr Binding) → List (Expr Binding) → Prop where
  | nil {maps : List NameMap} : ExprsRenamed maps [] []
  | cons {maps : List NameMap} {e e' : Expr Binding} {rest rest' : List (Expr Binding)} :
      Expr.Renamed maps e e' → ExprsRenamed maps rest rest' →
      ExprsRenamed maps (e :: rest) (e' :: rest')

/-- Statements that differ in the names of local variables. -/
inductive Stmt.Renamed : List NameMap → Stmt Binding → Stmt Binding → Prop where
  | expression {maps : List NameMap} {value value' : Expr Binding} :
      Expr.Renamed maps value value' → Stmt.Renamed maps (.expression value) (.expression value')
  | print {maps : List NameMap} {value value' : Expr Binding} :
      Expr.Renamed maps value value' → Stmt.Renamed maps (.print value) (.print value')
  | varNone {maps : List NameMap} (name : Name) :
      Stmt.Renamed maps (.var name none) (.var (name.rename (.ofDistance maps 0)) none)
  | var {maps : List NameMap} {value value' : Expr Binding} (name : Name) :
      Expr.Renamed maps value value' →
      Stmt.Renamed maps (.var name (some value))
        (.var (name.rename (.ofDistance maps 0)) (some value'))
  | block {maps : List NameMap} {body body' : List (Stmt Binding)} (ρ : NameMap) :
      StmtsRenamed (ρ :: maps) body body' → Stmt.Renamed maps (.block body) (.block body')
  | ifStmt {maps : List NameMap} {condition condition' : Expr Binding}
      {thenBranch thenBranch' : Stmt Binding} {elifs elifs' : List (Elif Binding)}
      {elseBranch elseBranch' : Option (Stmt Binding)} :
      Expr.Renamed maps condition condition' → Stmt.Renamed maps thenBranch thenBranch' →
      ElifsRenamed maps elifs elifs' → ElseRenamed maps elseBranch elseBranch' →
      Stmt.Renamed maps (.ifStmt condition thenBranch elifs elseBranch)
        (.ifStmt condition' thenBranch' elifs' elseBranch')
  | whileStmt {maps : List NameMap} {condition condition' : Expr Binding}
      {body body' : Stmt Binding} : Expr.Renamed maps condition condition' →
      Stmt.Renamed maps body body' →
      Stmt.Renamed maps (.whileStmt condition body) (.whileStmt condition' body')
  | functionDecl {maps : List NameMap} {f f' : Function Binding} :
      NameMap.ofDistance maps 0 f.name.text = f.name.text → Function.Renamed maps f f' →
      Stmt.Renamed maps (.functionDecl f) (.functionDecl f')
  | returnNone {maps : List NameMap} (line : Nat) :
      Stmt.Renamed maps (.returnStmt line none) (.returnStmt line none)
  | returnStmt {maps : List NameMap} {value value' : Expr Binding} (line : Nat) :
      Expr.Renamed maps value value' →
      Stmt.Renamed maps (.returnStmt line (some value)) (.returnStmt line (some value'))
  | breakStmt {maps : List NameMap} (line : Nat) :
      Stmt.Renamed maps (.breakStmt line) (.breakStmt line)
  | classDecl {maps : List NameMap} {name : Name} {superclass : Option (Reference Binding)}
      {methods methods' : List (Function Binding)} :
      NameMap.ofDistance maps 0 name.text = name.text →
      FunctionsRenamed (classMaps superclass.isSome maps) methods methods' →
      Stmt.Renamed maps (.classDecl name superclass methods)
        (.classDecl name (superclass.map (Reference.rename maps)) methods')

/-- Sequences of statements that differ in the names of local variables. -/
inductive StmtsRenamed : List NameMap → List (Stmt Binding) → List (Stmt Binding) → Prop where
  | nil {maps : List NameMap} : StmtsRenamed maps [] []
  | cons {maps : List NameMap} {s s' : Stmt Binding} {rest rest' : List (Stmt Binding)} :
      Stmt.Renamed maps s s' → StmtsRenamed maps rest rest' →
      StmtsRenamed maps (s :: rest) (s' :: rest')

/-- Branches of a choice that differ in the names of local variables. -/
inductive ElifsRenamed : List NameMap → List (Elif Binding) → List (Elif Binding) → Prop where
  | nil {maps : List NameMap} : ElifsRenamed maps [] []
  | cons {maps : List NameMap} {condition condition' : Expr Binding} {body body' : Stmt Binding}
      {rest rest' : List (Elif Binding)} : Expr.Renamed maps condition condition' →
      Stmt.Renamed maps body body' → ElifsRenamed maps rest rest' →
      ElifsRenamed maps (.mk condition body :: rest) (.mk condition' body' :: rest')

/-- Last branches of a choice that differ in the names of local variables. -/
inductive ElseRenamed : List NameMap → Option (Stmt Binding) → Option (Stmt Binding) → Prop where
  | none {maps : List NameMap} : ElseRenamed maps none none
  | some {maps : List NameMap} {s s' : Stmt Binding} : Stmt.Renamed maps s s' →
      ElseRenamed maps (some s) (some s')

/-- Functions that differ in the names of local variables. -/
inductive Function.Renamed : List NameMap → Function Binding → Function Binding → Prop where
  | mk {maps : List NameMap} {body body' : List (Stmt Binding)} (name : Name)
      (parameters : List Name) (ρ : NameMap) : StmtsRenamed (ρ :: maps) body body' →
      Function.Renamed maps (.mk name parameters body)
        (.mk name (parameters.map (Name.rename ρ)) body')

/-- Methods that differ in the names of local variables. -/
inductive FunctionsRenamed :
    List NameMap → List (Function Binding) → List (Function Binding) → Prop where
  | nil {maps : List NameMap} : FunctionsRenamed maps [] []
  | cons {maps : List NameMap} {f f' : Function Binding} {rest rest' : List (Function Binding)} :
      Function.Renamed maps f f' → FunctionsRenamed maps rest rest' →
      FunctionsRenamed maps (f :: rest) (f' :: rest')

end

/-! ## Trees that are the same -/

/-- No names are changed, of whichever scope. -/
def NameMap.Keeps (maps : List NameMap) : Prop := ∀ distance, ofDistance maps distance = keep

namespace NameMap.Keeps

variable {maps : List NameMap}

theorem nil : Keeps [] := fun _ => rfl

theorem cons (h : Keeps maps) : Keeps (keep :: maps)
  | 0 => rfl
  | distance + 1 => h distance

theorem classMaps (h : Keeps maps) (derived : Bool) : Keeps (classMaps derived maps) := by
  cases derived with
  | false => exact h.cons
  | true => exact h.cons.cons

theorem rename (h : Keeps maps) (r : Reference Binding) : r.rename maps = r := by
  obtain ⟨name, binding⟩ := r
  have hb : ofBinding maps binding = keep := by
    cases binding with
    | global => rfl
    | «local» distance => exact h distance
  rw [Reference.rename, hb]
  rfl

end NameMap.Keeps

theorem Name.map_rename_keep (names : List Name) : names.map (Name.rename .keep) = names :=
  List.map_id names

mutual

/-- A tree whose names are kept is related to itself. -/
theorem Expr.Renamed.refl {maps : List NameMap} (h : NameMap.Keeps maps) :
    ∀ e : Expr Binding, Expr.Renamed maps e e
  | .literal value => .literal value
  | .grouping inner => .grouping (.refl h inner)
  | .unary op line operand => .unary op line (.refl h operand)
  | .binary left op line right => .binary op line (.refl h left) (.refl h right)
  | .logical left op line right => .logical op line (.refl h left) (.refl h right)
  | .variable target => by
    have ht := @Expr.Renamed.variable maps target
    rwa [h.rename] at ht
  | .assign target value => by
    have ht := Expr.Renamed.assign target (.refl h value)
    rwa [h.rename] at ht
  | .call callee line arguments => .call line (.refl h callee) (.refl h arguments)
  | .get object property => .get property (.refl h object)
  | .set object field value => .set field (.refl h object) (.refl h value)
  | .this line binding => .this line binding
  | .super line method binding => .super line method binding
  | .lambda line parameters body => by
    have hl := Expr.Renamed.lambda line parameters .keep (.refl h.cons body)
    rwa [Name.map_rename_keep] at hl

theorem ExprsRenamed.refl {maps : List NameMap} (h : NameMap.Keeps maps) :
    ∀ es : List (Expr Binding), ExprsRenamed maps es es
  | [] => .nil
  | e :: rest => .cons (.refl h e) (.refl h rest)

theorem Stmt.Renamed.refl {maps : List NameMap} (h : NameMap.Keeps maps) :
    ∀ s : Stmt Binding, Stmt.Renamed maps s s
  | .expression value => .expression (.refl h value)
  | .print value => .print (.refl h value)
  | .var name none => by
    have hs := @Stmt.Renamed.varNone maps name
    rwa [h 0] at hs
  | .var name (some value) => by
    have hs := Stmt.Renamed.var name (.refl h value)
    rwa [h 0] at hs
  | .block body => .block .keep (.refl h.cons body)
  | .ifStmt condition thenBranch elifs none =>
    .ifStmt (.refl h condition) (.refl h thenBranch) (.refl h elifs) .none
  | .ifStmt condition thenBranch elifs (some s) =>
    .ifStmt (.refl h condition) (.refl h thenBranch) (.refl h elifs) (.some (.refl h s))
  | .whileStmt condition body => .whileStmt (.refl h condition) (.refl h body)
  | .functionDecl f => .functionDecl (by rw [h 0]; rfl) (.refl h f)
  | .returnStmt line none => .returnNone line
  | .returnStmt line (some value) => .returnStmt line (.refl h value)
  | .breakStmt line => .breakStmt line
  | .classDecl name superclass methods => by
    have hname : NameMap.ofDistance maps 0 name.text = name.text := by rw [h 0]; rfl
    have hs := Stmt.Renamed.classDecl hname
      (FunctionsRenamed.refl (h.classMaps superclass.isSome) methods)
    rwa [show superclass.map (Reference.rename maps) = superclass by
      cases superclass <;> simp [h.rename]] at hs

theorem StmtsRenamed.refl {maps : List NameMap} (h : NameMap.Keeps maps) :
    ∀ body : List (Stmt Binding), StmtsRenamed maps body body
  | [] => .nil
  | s :: rest => .cons (.refl h s) (.refl h rest)

theorem ElifsRenamed.refl {maps : List NameMap} (h : NameMap.Keeps maps) :
    ∀ branches : List (Elif Binding), ElifsRenamed maps branches branches
  | [] => .nil
  | .mk condition body :: rest => .cons (.refl h condition) (.refl h body) (.refl h rest)

theorem Function.Renamed.refl {maps : List NameMap} (h : NameMap.Keeps maps) :
    ∀ f : Function Binding, Function.Renamed maps f f
  | .mk name parameters body => by
    have hf := Function.Renamed.mk name parameters .keep (.refl h.cons body)
    rwa [Name.map_rename_keep] at hf

theorem FunctionsRenamed.refl {maps : List NameMap} (h : NameMap.Keeps maps) :
    ∀ methods : List (Function Binding), FunctionsRenamed maps methods methods
  | [] => .nil
  | f :: rest => .cons (.refl h f) (.refl h rest)

end

end ClassScript
