import ClassScript.Diagnostic
import ClassScript.Scope.Binding
import ClassScript.Slots

/-!
# Resolution of names

Resolution walks a program once, in the order in which it is written, with the
stack of the local scopes that are open.  It gives every reference its binding
and reports what breaks the rules for names:

* no two declarations of one name in one local scope,
* no use of a local variable in its own initializer,
* no `return` outside of functions, and none with a value in an initializer
  method,
* no class that inherits from itself,
* `this` only inside a class, `super` only inside one with a superclass.

A report does not stop the walk.  The globals are no scope of the stack: they
may be declared again, and a name that no open scope holds is looked up among
them when the program runs.

A block, a function body with its parameters, and the methods of a class with
`this` are scopes.  A class with a superclass has one more around its methods,
for `super`.  In an assignment to a field the value comes before the object.
-/

namespace ClassScript

namespace Resolution

/-! ## The state of the walk -/

/-- The names of a scope.  A name is true when it may be used, and false while
its initializer is being resolved. -/
abbrev StaticScope := Slots Bool

/-- The state of the walk. -/
structure State where
  /-- The local scopes that are open, the innermost first. -/
  scopes : List StaticScope
  /-- The mistakes so far, in order. -/
  diagnostics : List Diagnostic
  /-- The references that were bound to a local scope, in order. -/
  references : Array LocalReference
deriving Repr

/-- A step of the walk. -/
abbrev Walk := StateM State

/-- What kind of function encloses a statement most closely. -/
inductive FunctionContext where
  | topLevel
  | function
  | method
  | initializer
deriving DecidableEq, Repr

/-- What kind of class encloses a statement most closely. -/
inductive ClassContext where
  | none
  | plain
  | derived
deriving DecidableEq, Repr

/-- What encloses a statement. -/
structure Context where
  /-- The closest function. -/
  function : FunctionContext
  /-- The closest class. -/
  enclosingClass : ClassContext
deriving DecidableEq, Repr

/-- Reports a mistake at a word of the program. -/
def report (word : Name) (error : ScopeError) : Walk Unit :=
  modify fun s =>
    { s with diagnostics := s.diagnostics ++ [⟨word.line, .text word.text, .scope error⟩] }

/-! ## Scopes -/

/-- A step taken inside a new innermost scope. -/
def inScope {α : Type} (scope : StaticScope) (step : Walk α) : Walk α := do
  modify fun s => { s with scopes := scope :: s.scopes }
  let a ← step
  modify fun s => { s with scopes := s.scopes.tail }
  return a

/-- The stack after a name is entered into the innermost scope. -/
def enter (name : String) (ready : Bool) : List StaticScope → List StaticScope
  | [] => []
  | scope :: outer => scope.set name ready :: outer

/-- Whether the innermost scope holds a name. -/
def declaredInnermost (name : String) : List StaticScope → Bool
  | [] => false
  | scope :: _ => scope.contains name

/-- Whether a name is in the middle of its declaration in the innermost
scope. -/
def beingDeclared (name : String) : List StaticScope → Bool
  | [] => false
  | scope :: _ => scope.get? name = some false

/-- Declares a name in the innermost scope.  It may not be used yet. -/
def declare (name : Name) : Walk Unit := do
  if declaredInnermost name.text (← get).scopes then report name .alreadyDeclared
  modify fun s => { s with scopes := enter name.text false s.scopes }

/-- Makes a declared name usable. -/
def define (name : Name) : Walk Unit :=
  modify fun s => { s with scopes := enter name.text true s.scopes }

/-- Declares a name that may be used at once. -/
def introduce (name : Name) : Walk Unit := do
  declare name
  define name

/-- The binding of a name: the closest scope that holds it. -/
def bindingOf (name : String) (scopes : List StaticScope) : Binding :=
  match scopes.findIdx? (·.contains name) with
  | none => .global
  | some distance => .local distance

/-- Binds a reference, and records it if a local scope holds its name. -/
def bind (kind : ReferenceKind) (name : Name) : Walk Binding := do
  let binding := bindingOf name.text (← get).scopes
  match binding with
  | .global => pure ()
  | .local distance =>
    modify fun s => { s with references := s.references.push ⟨kind, name, distance⟩ }
  return binding

/-! ## The walk -/

/-- Binds the name of a variable whose value is read. -/
def readVariable (name : Name) : Walk (Reference Binding) := do
  if beingDeclared name.text (← get).scopes then report name .readInOwnInitializer
  return ⟨name, ← bind .variable name⟩

/-- Binds the name of a variable that is assigned to. -/
def writeVariable (name : Name) : Walk (Reference Binding) := do
  return ⟨name, ← bind .assign name⟩

/-- Binds `this`. -/
def readThis (context : Context) (line : Nat) : Walk Binding := do
  let word : Name := ⟨"this", line⟩
  match context.enclosingClass with
  | .none =>
    report word .thisOutsideClass
    return .global
  | _ => bind .this word

/-- Binds `super`. -/
def readSuper (context : Context) (line : Nat) : Walk Binding := do
  let word : Name := ⟨"super", line⟩
  match context.enclosingClass with
  | .none => report word .superOutsideClass
  | .plain => report word .superWithoutSuperclass
  | .derived => pure ()
  bind .super word

/-- Checks a `return`, apart from its value. -/
def checkReturn (context : Context) (line : Nat) (hasValue : Bool) : Walk Unit := do
  let word : Name := ⟨"return", line⟩
  if context.function = .topLevel then report word .returnAtTopLevel
  if hasValue ∧ context.function = .initializer then report word .returnValueFromInitializer

/-- Declares the parameters of a function in the innermost scope. -/
def introduceAll : List Name → Walk Unit
  | [] => pure ()
  | name :: rest => do
    introduce name
    introduceAll rest

/-- The superclass of a class of the given name. -/
def resolveSuperclass (name : Name) : Option (Reference Unit) → Walk (Option (Reference Binding))
  | none => return none
  | some parent => do
    if parent.name.text = name.text then report parent.name .inheritsFromItself
    return some (← readVariable parent.name)

/-- What a method with the given name is. -/
def methodContext (name : Name) : FunctionContext :=
  if name.text = initializerName then .initializer else .method

/-- A step taken inside the scopes of a class body. -/
def inClass {α : Type} (derived : Bool) (step : Walk α) : Walk α :=
  let body := inScope (Slots.single "this" true) step
  if derived then inScope (Slots.single "super" true) body else body

mutual

/-- An expression with its bindings. -/
def resolveExpr (context : Context) : Expr Unit → Walk (Expr Binding)
  | .literal value => return .literal value
  | .grouping inner => return .grouping (← resolveExpr context inner)
  | .unary op line operand => return .unary op line (← resolveExpr context operand)
  | .binary left op line right => do
    let left ← resolveExpr context left
    return .binary left op line (← resolveExpr context right)
  | .logical left op line right => do
    let left ← resolveExpr context left
    return .logical left op line (← resolveExpr context right)
  | .variable target => return .variable (← readVariable target.name)
  | .assign target value => do
    let value ← resolveExpr context value
    return .assign (← writeVariable target.name) value
  | .call callee line arguments => do
    let callee ← resolveExpr context callee
    return .call callee line (← resolveExprs context arguments)
  | .get object property => return .get (← resolveExpr context object) property
  | .set object field value => do
    let value ← resolveExpr context value
    return .set (← resolveExpr context object) field value
  | .this line _ => return .this line (← readThis context line)
  | .super line method _ => return .super line method (← readSuper context line)
  | .lambda line parameters body => do
    let body ← inScope ∅ do
      introduceAll parameters
      resolveStmts { context with function := .function } body
    return .lambda line parameters body

/-- Expressions with their bindings. -/
def resolveExprs (context : Context) : List (Expr Unit) → Walk (List (Expr Binding))
  | [] => return []
  | e :: rest => do
    let e ← resolveExpr context e
    return e :: (← resolveExprs context rest)

/-- A statement with its bindings. -/
def resolveStmt (context : Context) : Stmt Unit → Walk (Stmt Binding)
  | .expression value => return .expression (← resolveExpr context value)
  | .print value => return .print (← resolveExpr context value)
  | .var name none => do
    introduce name
    return .var name none
  | .var name (some value) => do
    declare name
    let value ← resolveExpr context value
    define name
    return .var name (some value)
  | .block body => return .block (← inScope ∅ (resolveStmts context body))
  | .ifStmt condition thenBranch elifs elseBranch => do
    let condition ← resolveExpr context condition
    let thenBranch ← resolveStmt context thenBranch
    let elifs ← resolveElifs context elifs
    match elseBranch with
    | none => return .ifStmt condition thenBranch elifs none
    | some stmt =>
      return .ifStmt condition thenBranch elifs (some (← resolveStmt context stmt))
  | .whileStmt condition body => do
    let condition ← resolveExpr context condition
    return .whileStmt condition (← resolveStmt context body)
  | .functionDecl f => do
    introduce f.name
    return .functionDecl (← resolveFunction context .function f)
  | .returnStmt line none => do
    checkReturn context line false
    return .returnStmt line none
  | .returnStmt line (some value) => do
    checkReturn context line true
    return .returnStmt line (some (← resolveExpr context value))
  | .breakStmt line => return .breakStmt line
  | .classDecl name superclass methods => do
    introduce name
    let superclass ← resolveSuperclass name superclass
    let context :=
      { context with enclosingClass := if superclass.isSome then .derived else .plain }
    let methods ← inClass superclass.isSome (resolveMethods context methods)
    return .classDecl name superclass methods

/-- Statements with their bindings. -/
def resolveStmts (context : Context) : List (Stmt Unit) → Walk (List (Stmt Binding))
  | [] => return []
  | s :: rest => do
    let s ← resolveStmt context s
    return s :: (← resolveStmts context rest)

/-- Branches of a choice with their bindings. -/
def resolveElifs (context : Context) : List (Elif Unit) → Walk (List (Elif Binding))
  | [] => return []
  | .mk condition body :: rest => do
    let condition ← resolveExpr context condition
    let body ← resolveStmt context body
    return .mk condition body :: (← resolveElifs context rest)

/-- A function with its bindings.  Its parameters and its body share a scope. -/
def resolveFunction (context : Context) (kind : FunctionContext) :
    Function Unit → Walk (Function Binding)
  | .mk name parameters body => do
    let body ← inScope ∅ do
      introduceAll parameters
      resolveStmts { context with function := kind } body
    return .mk name parameters body

/-- Methods with their bindings. -/
def resolveMethods (context : Context) : List (Function Unit) → Walk (List (Function Binding))
  | [] => return []
  | f :: rest => do
    let f ← resolveFunction context (methodContext f.name) f
    return f :: (← resolveMethods context rest)

end

end Resolution

/-- A program with its bindings. -/
structure Resolution where
  /-- The program. -/
  program : Program Binding
  /-- What breaks the rules for names, in order. -/
  diagnostics : List Diagnostic
  /-- The references that were bound to a local scope, in order. -/
  references : Array LocalReference

/-- The program with every reference bound. -/
def Resolution.ofProgram (program : Program Unit) : Resolution :=
  let (program, s) := (Resolution.resolveStmts ⟨.topLevel, .none⟩ program).run ⟨[], [], #[]⟩
  ⟨program, s.diagnostics, s.references⟩

end ClassScript
