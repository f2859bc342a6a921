import ClassScript.Syntax.Tree
import ClassScript.Text.Json

/-!
# Dumps of syntax trees

The dump of a tree is a JSON value that shows everything in it.  A node is an
object whose first member `__type__` names its kind.  A token is an object with
its kind, its text and its line; every token of a tree is a name, an operator, a
keyword or a parenthesis, so it is known from what the tree keeps.  A missing
part is null.

Bindings are not shown, so the dump is the same before and after names are
resolved.
-/

namespace ClassScript

/-- The dump of a token. -/
def tokenDump (kind : TokenKind) (text : String) (line : Nat) : Json :=
  .object [("type", .string kind.name), ("lexeme", .string text), ("line", .integer line)]

/-- The dump of a symbol or a keyword. -/
def TokenKind.dump (kind : TokenKind) (line : Nat) : Json :=
  tokenDump kind (kind.spelling?.getD "") line

/-- The dump of a name. -/
def Name.dump (n : Name) : Json := tokenDump .identifier n.text n.line

/-- The dump of a node of the given kind. -/
def nodeDump (kind : String) (members : List (String × Json)) : Json :=
  .object (("__type__", .string kind) :: members)

/-- The dump of a value written down. -/
def Literal.dump : Literal → Json
  | nil => .null
  | boolean b => .boolean b
  | number x => .number x
  | string s => .string s

/-- The dump of a name that is used as an expression. -/
def Reference.dump {β : Type} (r : Reference β) : Json :=
  nodeDump "Variable" [("name", r.name.dump)]

/-- The dump of a part that may be missing. -/
def optionDump : Option Json → Json
  | none => .null
  | some j => j

mutual

/-- The dump of an expression. -/
def Expr.dump {β : Type} : Expr β → Json
  | .literal value => nodeDump "Literal" [("value", value.dump)]
  | .grouping inner => nodeDump "Grouping" [("expression", inner.dump)]
  | .unary op line operand =>
      nodeDump "Unary" [("operator", op.token.dump line), ("right", operand.dump)]
  | .binary left op line right =>
      nodeDump "Binary"
        [("left", left.dump), ("operator", op.token.dump line), ("right", right.dump)]
  | .logical left op line right =>
      nodeDump "Logical"
        [("left", left.dump), ("operator", op.token.dump line), ("right", right.dump)]
  | .variable target => target.dump
  | .assign target value =>
      nodeDump "Assign" [("name", target.name.dump), ("value", value.dump)]
  | .call callee line arguments =>
      nodeDump "Call"
        [("callee", callee.dump), ("paren", TokenKind.rightParen.dump line),
          ("arguments", .array (exprDumps arguments))]
  | .get object property =>
      nodeDump "Get" [("object", object.dump), ("name", property.dump)]
  | .set object field value =>
      nodeDump "Set" [("object", object.dump), ("name", field.dump), ("value", value.dump)]
  | .this line _ => nodeDump "This" [("keyword", TokenKind.thisKw.dump line)]
  | .super line method _ =>
      nodeDump "Super" [("keyword", TokenKind.superKw.dump line), ("method", method.dump)]
  | .lambda line parameters body =>
      nodeDump "AnonymousFunction"
        [("keyword", TokenKind.funKw.dump line),
          ("params", .array (parameters.map Name.dump)), ("body", .array (stmtDumps body))]

/-- The dumps of expressions. -/
def exprDumps {β : Type} : List (Expr β) → List Json
  | [] => []
  | e :: rest => e.dump :: exprDumps rest

/-- The dump of a statement. -/
def Stmt.dump {β : Type} : Stmt β → Json
  | .expression value => nodeDump "Expression" [("expression", value.dump)]
  | .print value => nodeDump "Print" [("expression", value.dump)]
  | .var name none => nodeDump "Var" [("name", name.dump), ("initializer", .null)]
  | .var name (some e) => nodeDump "Var" [("name", name.dump), ("initializer", e.dump)]
  | .block body => nodeDump "Block" [("statements", .array (stmtDumps body))]
  | .ifStmt condition thenBranch elifs elseBranch =>
      nodeDump "If"
        [("condition", condition.dump), ("then_branch", thenBranch.dump),
          ("elif_branches", .array (elifDumps elifs)),
          ("else_branch", match elseBranch with
            | none => .null
            | some s => s.dump)]
  | .whileStmt condition body =>
      nodeDump "While" [("condition", condition.dump), ("body", body.dump)]
  | .functionDecl declaration => declaration.dump
  | .returnStmt line none =>
      nodeDump "Return" [("keyword", TokenKind.returnKw.dump line), ("value", .null)]
  | .returnStmt line (some e) =>
      nodeDump "Return" [("keyword", TokenKind.returnKw.dump line), ("value", e.dump)]
  | .breakStmt line => nodeDump "Break" [("keyword", TokenKind.breakKw.dump line)]
  | .classDecl name superclass methods =>
      nodeDump "Class"
        [("name", name.dump), ("superclass", optionDump (superclass.map Reference.dump)),
          ("methods", .array (functionDumps methods))]

/-- The dumps of statements. -/
def stmtDumps {β : Type} : List (Stmt β) → List Json
  | [] => []
  | s :: rest => s.dump :: stmtDumps rest

/-- The dump of a branch of a choice. -/
def Elif.dump {β : Type} : Elif β → Json
  | .mk condition body => nodeDump "Elif" [("condition", condition.dump), ("body", body.dump)]

/-- The dumps of branches. -/
def elifDumps {β : Type} : List (Elif β) → List Json
  | [] => []
  | e :: rest => e.dump :: elifDumps rest

/-- The dump of a function. -/
def Function.dump {β : Type} : Function β → Json
  | .mk name parameters body =>
      nodeDump "Function"
        [("name", name.dump), ("params", .array (parameters.map Name.dump)),
          ("body", .array (stmtDumps body))]

/-- The dumps of functions. -/
def functionDumps {β : Type} : List (Function β) → List Json
  | [] => []
  | f :: rest => f.dump :: functionDumps rest

end

/-- The dump of a program. -/
def Program.dump {β : Type} (program : Program β) : Json :=
  nodeDump "Program" [("body", .array (stmtDumps program))]

end ClassScript
