import ClassScript.Proofs.Text.Reading
import ClassScript.Syntax.Dump

/-!
# Reading dumps

The dump of a program is read from the inside out.  Each value of a dump stands for a *part*
of a tree: a literal, a token, a node of the tree or a list of parts (`Part.ofDump`).  A node is
made of the parts that its members stand for, which come in a fixed order (`Part.ofNode`).

Every program is read back from its dump (`Program.ofDump_dump`), so the dump and its text
determine the program.
-/

namespace ClassScript

/-! ## Tokens -/

/-- The operator of a token, if it may leave out its second operand. -/
def LogicalOp.ofToken? : TokenKind → Option LogicalOp
  | .andKw => some and
  | .orKw => some or
  | _ => none

theorem LogicalOp.ofToken?_token (op : LogicalOp) : ofToken? op.token = some op := by
  cases op <;> rfl

namespace TokenKind

/-- All kinds of tokens. -/
def kinds : List TokenKind :=
  [leftParen, rightParen, leftBrace, rightBrace, comma, dot, minus, plus, semicolon, slash, star,
    bang, bangEqual, equal, equalEqual, greater, greaterEqual, less, lessEqual,
    identifier, string, number] ++ keywords

/-- The kind of token with the given name. -/
def ofName? (name : String) : Option TokenKind := kinds.find? fun k => k.name = name

theorem ofName?_name (kind : TokenKind) : ofName? kind.name = some kind := by
  cases kind <;> rfl

end TokenKind

/-! ## Kinds of nodes -/

/-- The kinds of nodes in a dump. -/
inductive NodeKind where
  | literal | grouping | unary | binary | logical | «variable» | assign | call | get | set | this
  | super | lambda
  | expression | print | var | block | ifStmt | whileStmt | returnStmt | breakStmt | classDecl
  | elif | function | program
deriving DecidableEq

namespace NodeKind

/-- The name of a kind in a dump. -/
def name : NodeKind → String
  | literal => "Literal"
  | grouping => "Grouping"
  | unary => "Unary"
  | binary => "Binary"
  | logical => "Logical"
  | «variable» => "Variable"
  | assign => "Assign"
  | call => "Call"
  | get => "Get"
  | set => "Set"
  | this => "This"
  | super => "Super"
  | lambda => "AnonymousFunction"
  | expression => "Expression"
  | print => "Print"
  | var => "Var"
  | block => "Block"
  | ifStmt => "If"
  | whileStmt => "While"
  | returnStmt => "Return"
  | breakStmt => "Break"
  | classDecl => "Class"
  | elif => "Elif"
  | function => "Function"
  | program => "Program"

/-- All kinds of nodes. -/
def kinds : List NodeKind :=
  [literal, grouping, unary, binary, logical, «variable», assign, call, get, set, this, super,
    lambda, expression, print, var, block, ifStmt, whileStmt, returnStmt, breakStmt, classDecl,
    elif, function, program]

/-- The kind of node with the given name. -/
def ofName? (name : String) : Option NodeKind := kinds.find? fun k => k.name = name

theorem ofName?_name (kind : NodeKind) : ofName? kind.name = some kind := by
  cases kind <;> rfl

end NodeKind

/-! ## Parts -/

/-- What a value in the dump of a tree stands for. -/
inductive Part where
  | literal (value : Literal)
  | integer (value : Nat)
  | token (kind : TokenKind) (text : String) (line : Nat)
  | expr (e : Expr Unit)
  | stmt (s : Stmt Unit)
  | elif (e : Elif Unit)
  | function (f : Function Unit)
  | program (p : Program Unit)
  | list (parts : List Part)

namespace Part

def literal? : Part → Option Literal
  | literal value => some value
  | _ => none

def expr? : Part → Option (Expr Unit)
  | expr e => some e
  | _ => none

/-- A function is also a statement, the one that declares it. -/
def stmt? : Part → Option (Stmt Unit)
  | stmt s => some s
  | function f => some (.functionDecl f)
  | _ => none

def elif? : Part → Option (Elif Unit)
  | elif e => some e
  | _ => none

def function? : Part → Option (Function Unit)
  | function f => some f
  | _ => none

def name? : Part → Option Name
  | token .identifier text line => some ⟨text, line⟩
  | _ => none

/-- The name that an expression consists of. -/
def reference? : Part → Option (Reference Unit)
  | expr (.variable target) => some target
  | _ => none

/-- The line of a token of the given kind. -/
def line? (kind : TokenKind) : Part → Option Nat
  | token k _ line => if k = kind then some line else none
  | _ => none

/-- An operator, by its token, and its line. -/
def operator? {α : Type} (ofToken? : TokenKind → Option α) : Part → Option (α × Nat)
  | token kind _ line => (ofToken? kind).map (·, line)
  | _ => none

/-- A part that may be missing. -/
def optional? {α : Type} (read : Part → Option α) : Part → Option (Option α)
  | literal .nil => some none
  | part => (read part).map some

def list? {α : Type} (read : Part → Option α) : Part → Option (List α)
  | list parts => parts.mapM read
  | _ => none

/-- The node of the given kind that is made of the given parts. -/
def ofNode (kind : NodeKind) (parts : List Part) : Option Part :=
  match kind, parts with
  | .literal, [value] => do
      return expr (.literal (← value.literal?))
  | .grouping, [inner] => do
      return expr (.grouping (← inner.expr?))
  | .unary, [op, operand] => do
      let (op, line) ← op.operator? UnaryOp.ofToken?
      return expr (.unary op line (← operand.expr?))
  | .binary, [left, op, right] => do
      let (op, line) ← op.operator? BinaryOp.ofToken?
      return expr (.binary (← left.expr?) op line (← right.expr?))
  | .logical, [left, op, right] => do
      let (op, line) ← op.operator? LogicalOp.ofToken?
      return expr (.logical (← left.expr?) op line (← right.expr?))
  | .«variable», [name] => do
      return expr (.variable ⟨← name.name?, ()⟩)
  | .assign, [name, value] => do
      return expr (.assign ⟨← name.name?, ()⟩ (← value.expr?))
  | .call, [callee, paren, arguments] => do
      return expr (.call (← callee.expr?) (← paren.line? .rightParen) (← arguments.list? expr?))
  | .get, [object, name] => do
      return expr (.get (← object.expr?) (← name.name?))
  | .set, [object, name, value] => do
      return expr (.set (← object.expr?) (← name.name?) (← value.expr?))
  | .this, [keyword] => do
      return expr (.this (← keyword.line? .thisKw) ())
  | .super, [keyword, method] => do
      return expr (.super (← keyword.line? .superKw) (← method.name?) ())
  | .lambda, [keyword, parameters, body] => do
      return expr (.lambda (← keyword.line? .funKw) (← parameters.list? name?) (← body.list? stmt?))
  | .expression, [value] => do
      return stmt (.expression (← value.expr?))
  | .print, [value] => do
      return stmt (.print (← value.expr?))
  | .var, [name, initializer] => do
      return stmt (.var (← name.name?) (← initializer.optional? expr?))
  | .block, [body] => do
      return stmt (.block (← body.list? stmt?))
  | .ifStmt, [condition, thenBranch, elifs, elseBranch] => do
      return stmt (.ifStmt (← condition.expr?) (← thenBranch.stmt?) (← elifs.list? elif?)
        (← elseBranch.optional? stmt?))
  | .whileStmt, [condition, body] => do
      return stmt (.whileStmt (← condition.expr?) (← body.stmt?))
  | .returnStmt, [keyword, value] => do
      return stmt (.returnStmt (← keyword.line? .returnKw) (← value.optional? expr?))
  | .breakStmt, [keyword] => do
      return stmt (.breakStmt (← keyword.line? .breakKw))
  | .classDecl, [name, superclass, methods] => do
      return stmt (.classDecl (← name.name?) (← superclass.optional? reference?)
        (← methods.list? function?))
  | .elif, [condition, body] => do
      return elif (.mk (← condition.expr?) (← body.stmt?))
  | .function, [name, parameters, body] => do
      return function (.mk (← name.name?) (← parameters.list? name?) (← body.list? stmt?))
  | .program, [body] => do
      return program (← body.list? stmt?)
  | _, _ => none

/-- The token or the node with the given members. -/
def ofMembers : List (String × Part) → Option Part
  | ("__type__", literal (.string kind)) :: members =>
      (NodeKind.ofName? kind).bind (ofNode · (members.map Prod.snd))
  | [("type", literal (.string kind)), ("lexeme", literal (.string text)),
        ("line", integer line)] =>
      (TokenKind.ofName? kind).map (token · text line)
  | _ => none

mutual

/-- What a value in a dump stands for. -/
def ofDump : Json → Option Part
  | .null => some (literal .nil)
  | .boolean b => some (literal (.boolean b))
  | .integer n => some (integer n)
  | .number x => some (literal (.number x))
  | .string s => some (literal (.string s))
  | .array items => (ofDumps items).map list
  | .object members => do ofMembers (← ofDumpMembers members)

/-- What the items of an array stand for. -/
def ofDumps : List Json → Option (List Part)
  | [] => some []
  | item :: items => do return (← ofDump item) :: (← ofDumps items)

/-- What the members of an object stand for, with their keys. -/
def ofDumpMembers : List (String × Json) → Option (List (String × Part))
  | [] => some []
  | (key, value) :: members => do return (key, ← ofDump value) :: (← ofDumpMembers members)

end

end Part

/-- The program with the given dump. -/
def Program.ofDump (dump : Json) : Option (Program Unit) :=
  match Part.ofDump dump with
  | some (.program p) => some p
  | _ => none

/-! ## Reading back -/

namespace Part

/-- A value is read back from its dump. -/
theorem ofDump_literal (v : Literal) : ofDump v.dump = some (literal v) := by
  cases v <;> simp only [Literal.dump, ofDump]

theorem ofDump_null : ofDump .null = some (literal .nil) :=
  ofDump_literal .nil

/-- A token is read back with its text and line. -/
theorem ofDump_tokenDump (kind : TokenKind) (text : String) (line : Nat) :
    ofDump (tokenDump kind text line) = some (token kind text line) := by
  simp [tokenDump, ofDump, ofDumpMembers, ofMembers, TokenKind.ofName?_name]

theorem ofDump_token (kind : TokenKind) (line : Nat) :
    ofDump (kind.dump line) = some (token kind (kind.spelling?.getD "") line) :=
  ofDump_tokenDump kind _ line

theorem ofDump_name (n : Name) : ofDump n.dump = some (token .identifier n.text n.line) :=
  ofDump_tokenDump .identifier _ _

theorem ofDumps_names (names : List Name) : ofDumps (names.map Name.dump) =
    some (names.map fun n => token .identifier n.text n.line) := by
  induction names with
  | nil => simp only [List.map_nil, ofDumps]
  | cons n names ih => simp [ofDumps, ofDump_name, ih]

/-- A node is read back from its type and its members. -/
theorem ofMembers_node (kind : NodeKind) (members : List (String × Part)) :
    ofMembers (("__type__", literal (.string kind.name)) :: members) =
      ofNode kind (members.map Prod.snd) := by
  rw [ofMembers, NodeKind.ofName?_name, Option.bind_some]

/-- Members whose values stand for the given parts. -/
inductive StandFor : List (String × Json) → List Part → Prop
  | nil : StandFor [] []
  | cons {key : String} {value : Json} {part : Part} {members : List (String × Json)}
      {parts : List Part} (h : ofDump value = some part) (rest : StandFor members parts) :
      StandFor ((key, value) :: members) (part :: parts)

/-- A node is made of the parts that its members stand for. -/
theorem ofDump_node (kind : NodeKind) {members : List (String × Json)} {parts : List Part}
    (h : StandFor members parts) : ofDump (nodeDump kind.name members) = ofNode kind parts := by
  have hmembers : ∃ named, ofDumpMembers members = some named ∧ named.map Prod.snd = parts := by
    induction h with
    | nil => exact ⟨[], by simp only [ofDumpMembers], rfl⟩
    | @cons key value part members parts hpart _ ih =>
      obtain ⟨named, hnamed, rfl⟩ := ih
      exact ⟨(key, part) :: named, by simp [ofDumpMembers, hpart, hnamed], rfl⟩
  obtain ⟨named, hnamed, rfl⟩ := hmembers
  simp [nodeDump, ofDump, ofDumpMembers, hnamed, ofMembers_node]

theorem ofDump_array {items : List Json} {parts : List Part} (h : ofDumps items = some parts) :
    ofDump (.array items) = some (list parts) := by
  rw [ofDump, h, Option.map_some]

theorem name?_token (n : Name) : (token .identifier n.text n.line).name? = some n := rfl

/-- The part that a statement becomes.  The declaration of a function is dumped as the function. -/
def ofStmt : Stmt Unit → Part
  | .functionDecl f => function f
  | s => stmt s

/-- A statement is told apart from an expression. -/
theorem stmt?_ofStmt (s : Stmt Unit) : (ofStmt s).stmt? = some s := by
  cases s <;> rfl

/-- A list is read back if its items are. -/
theorem list?_map {α : Type} {read : Part → Option α} (write : α → Part)
    (h : ∀ a, read (write a) = some a) (items : List α) :
    (list (items.map write)).list? read = some items := by
  induction items with
  | nil => rfl
  | cons a items ih =>
    simp only [list?] at ih ⊢
    rw [List.map_cons, List.mapM_cons, h, ih]
    rfl

theorem list?_names (names : List Name) :
    (list (names.map fun n => token .identifier n.text n.line)).list? name? = some names :=
  list?_map _ name?_token names

theorem list?_exprs (es : List (Expr Unit)) : (list (es.map expr)).list? expr? = some es :=
  list?_map expr (fun _ => rfl) es

theorem list?_stmts (ss : List (Stmt Unit)) : (list (ss.map ofStmt)).list? stmt? = some ss :=
  list?_map _ stmt?_ofStmt ss

theorem list?_elifs (es : List (Elif Unit)) : (list (es.map elif)).list? elif? = some es :=
  list?_map elif (fun _ => rfl) es

theorem list?_functions (fs : List (Function Unit)) :
    (list (fs.map function)).list? function? = some fs :=
  list?_map function (fun _ => rfl) fs

theorem optional?_ofStmt (s : Stmt Unit) : (ofStmt s).optional? stmt? = some (some s) := by
  cases s <;> rfl

theorem ofDump_reference (r : Reference Unit) :
    ofDump r.dump = some (expr (.variable r)) :=
  ofDump_node .«variable» (.cons (ofDump_name r.name) .nil)

mutual

/-- Every expression is read back from its dump. -/
theorem ofDump_expr (e : Expr Unit) : ofDump e.dump = some (expr e) := by
  cases e with
  | literal v =>
    rw [Expr.dump]
    exact ofDump_node .literal (.cons (ofDump_literal v) .nil)
  | grouping inner =>
    rw [Expr.dump]
    exact ofDump_node .grouping (.cons (ofDump_expr inner) .nil)
  | unary op line operand =>
    rw [Expr.dump]
    refine (ofDump_node .unary (.cons (ofDump_token ..) (.cons (ofDump_expr operand)
      .nil))).trans ?_
    simp only [ofNode, operator?, UnaryOp.ofToken?_token]
    rfl
  | binary left op line right =>
    rw [Expr.dump]
    refine (ofDump_node .binary (.cons (ofDump_expr left) (.cons (ofDump_token ..)
      (.cons (ofDump_expr right) .nil)))).trans ?_
    simp only [ofNode, operator?, BinaryOp.ofToken?_token]
    rfl
  | logical left op line right =>
    rw [Expr.dump]
    refine (ofDump_node .logical (.cons (ofDump_expr left) (.cons (ofDump_token ..)
      (.cons (ofDump_expr right) .nil)))).trans ?_
    simp only [ofNode, operator?, LogicalOp.ofToken?_token]
    rfl
  | «variable» target =>
    rw [Expr.dump]
    exact ofDump_reference target
  | assign target value =>
    rw [Expr.dump]
    exact ofDump_node .assign (.cons (ofDump_name _) (.cons (ofDump_expr value) .nil))
  | call callee line arguments =>
    rw [Expr.dump]
    refine (ofDump_node .call (.cons (ofDump_expr callee) (.cons (ofDump_token ..)
      (.cons (ofDump_array (ofDumps_exprs arguments)) .nil)))).trans ?_
    simp only [ofNode, list?_exprs]
    rfl
  | get object property =>
    rw [Expr.dump]
    exact ofDump_node .get (.cons (ofDump_expr object) (.cons (ofDump_name property) .nil))
  | set object field value =>
    rw [Expr.dump]
    exact ofDump_node .set (.cons (ofDump_expr object) (.cons (ofDump_name field)
      (.cons (ofDump_expr value) .nil)))
  | this line binding =>
    rw [Expr.dump]
    exact ofDump_node .this (.cons (ofDump_token ..) .nil)
  | super line method binding =>
    rw [Expr.dump]
    exact ofDump_node .super (.cons (ofDump_token ..) (.cons (ofDump_name method) .nil))
  | lambda line parameters body =>
    rw [Expr.dump]
    refine (ofDump_node .lambda (.cons (ofDump_token ..) (.cons (ofDump_array (ofDumps_names _))
      (.cons (ofDump_array (ofDumps_stmts body)) .nil)))).trans ?_
    simp only [ofNode, list?_names, list?_stmts]
    rfl

/-- Expressions are read back from their dumps, one by one. -/
theorem ofDumps_exprs : ∀ es : List (Expr Unit), ofDumps (exprDumps es) = some (es.map expr)
  | [] => by simp only [exprDumps, ofDumps, List.map_nil]
  | e :: rest => by simp [exprDumps, ofDumps, ofDump_expr e, ofDumps_exprs rest]

/-- Every statement is read back from its dump. -/
theorem ofDump_stmt (s : Stmt Unit) : ofDump s.dump = some (ofStmt s) := by
  cases s with
  | expression value =>
    rw [Stmt.dump]
    exact ofDump_node .expression (.cons (ofDump_expr value) .nil)
  | print value =>
    rw [Stmt.dump]
    exact ofDump_node .print (.cons (ofDump_expr value) .nil)
  | var name initializer =>
    cases initializer with
    | none =>
      rw [Stmt.dump]
      exact ofDump_node .var (.cons (ofDump_name name) (.cons ofDump_null .nil))
    | some e =>
      rw [Stmt.dump]
      exact ofDump_node .var (.cons (ofDump_name name) (.cons (ofDump_expr e) .nil))
  | block body =>
    rw [Stmt.dump]
    refine (ofDump_node .block (.cons (ofDump_array (ofDumps_stmts body)) .nil)).trans ?_
    simp only [ofNode, list?_stmts]
    rfl
  | ifStmt condition thenBranch elifs elseBranch =>
    have helifs := ofDump_array (ofDumps_elifs elifs)
    cases elseBranch with
    | none =>
      rw [Stmt.dump]
      refine (ofDump_node .ifStmt (.cons (ofDump_expr condition) (.cons (ofDump_stmt thenBranch)
        (.cons helifs (.cons ofDump_null .nil))))).trans ?_
      simp only [ofNode, stmt?_ofStmt, list?_elifs]
      rfl
    | some s =>
      rw [Stmt.dump]
      refine (ofDump_node .ifStmt (.cons (ofDump_expr condition) (.cons (ofDump_stmt thenBranch)
        (.cons helifs (.cons (ofDump_stmt s) .nil))))).trans ?_
      simp only [ofNode, stmt?_ofStmt, list?_elifs, optional?_ofStmt]
      rfl
  | whileStmt condition body =>
    rw [Stmt.dump]
    refine (ofDump_node .whileStmt (.cons (ofDump_expr condition) (.cons (ofDump_stmt body)
      .nil))).trans ?_
    simp only [ofNode, stmt?_ofStmt]
    rfl
  | functionDecl f =>
    rw [Stmt.dump]
    exact ofDump_function f
  | returnStmt line value =>
    cases value with
    | none =>
      rw [Stmt.dump]
      exact ofDump_node .returnStmt (.cons (ofDump_token ..) (.cons ofDump_null .nil))
    | some e =>
      rw [Stmt.dump]
      exact ofDump_node .returnStmt (.cons (ofDump_token ..) (.cons (ofDump_expr e) .nil))
  | breakStmt line =>
    rw [Stmt.dump]
    exact ofDump_node .breakStmt (.cons (ofDump_token ..) .nil)
  | classDecl name superclass methods =>
    have hmethods := ofDump_array (ofDumps_functions methods)
    cases superclass with
    | none =>
      rw [Stmt.dump]
      refine (ofDump_node .classDecl (.cons (ofDump_name name) (.cons ofDump_null
        (.cons hmethods .nil)))).trans ?_
      simp only [ofNode, list?_functions]
      rfl
    | some target =>
      rw [Stmt.dump]
      refine (ofDump_node .classDecl (.cons (ofDump_name name) (.cons (ofDump_reference target)
        (.cons hmethods .nil)))).trans ?_
      simp only [ofNode, list?_functions]
      rfl

/-- Statements are read back from their dumps, one by one. -/
theorem ofDumps_stmts : ∀ ss : List (Stmt Unit), ofDumps (stmtDumps ss) = some (ss.map ofStmt)
  | [] => by simp only [stmtDumps, ofDumps, List.map_nil]
  | s :: rest => by simp [stmtDumps, ofDumps, ofDump_stmt s, ofDumps_stmts rest]

/-- A branch is read back from its dump. -/
theorem ofDump_elif : ∀ e : Elif Unit, ofDump e.dump = some (elif e)
  | .mk condition body => by
    rw [Elif.dump]
    refine (ofDump_node .elif (.cons (ofDump_expr condition) (.cons (ofDump_stmt body)
      .nil))).trans ?_
    simp only [ofNode, stmt?_ofStmt]
    rfl

theorem ofDumps_elifs : ∀ es : List (Elif Unit), ofDumps (elifDumps es) = some (es.map elif)
  | [] => by simp only [elifDumps, ofDumps, List.map_nil]
  | e :: rest => by simp [elifDumps, ofDumps, ofDump_elif e, ofDumps_elifs rest]

/-- A function is read back from its dump. -/
theorem ofDump_function : ∀ f : Function Unit, ofDump f.dump = some (function f)
  | .mk name parameters body => by
    rw [Function.dump]
    refine (ofDump_node .function (.cons (ofDump_name name) (.cons (ofDump_array (ofDumps_names _))
      (.cons (ofDump_array (ofDumps_stmts body)) .nil)))).trans ?_
    simp only [ofNode, list?_names, list?_stmts]
    rfl

theorem ofDumps_functions : ∀ fs : List (Function Unit),
    ofDumps (functionDumps fs) = some (fs.map function)
  | [] => by simp only [functionDumps, ofDumps, List.map_nil]
  | f :: rest => by simp [functionDumps, ofDumps, ofDump_function f, ofDumps_functions rest]

end

end Part

namespace Program

/-- Every program is read back from its dump. -/
theorem ofDump_dump (p : Program Unit) : ofDump p.dump = some p := by
  have hbody := Part.ofDump_array (Part.ofDumps_stmts p)
  have hread : Part.ofDump p.dump = some (.program p) := by
    rw [Program.dump]
    refine (Part.ofDump_node .program (.cons hbody .nil)).trans ?_
    simp only [Part.ofNode, Part.list?_stmts]
    rfl
  rw [ofDump, hread]

/-- The program whose dump has the given text. -/
def ofText (text : String) : Option (Program Unit) := (Json.ofText text).bind ofDump

/-- A program is read back from the text of its dump, with or without a newline. -/
theorem ofText_dump (p : Program Unit) :
    ofText p.dump.text = some p ∧ ofText (p.dump.text ++ "\n") = some p := by
  obtain ⟨htext, hline⟩ := Json.ofText_text p.dump
  simp only [ofText, htext, hline, Option.bind_some, ofDump_dump, and_self]

/-- The text of its dump determines a program. -/
theorem dump_text_inj {p q : Program Unit} : p.dump.text = q.dump.text ↔ p = q := by
  constructor
  · intro h
    have hread := (ofText_dump p).1
    rw [h, (ofText_dump q).1] at hread
    exact (Option.some.inj hread).symm
  · rintro rfl
    rfl

end Program

end ClassScript
