/-!
# Tokens

A *token* is a piece of program text with its kind, the value it carries and
the line it ends on.  Symbols and keywords have one spelling each
(`TokenKind.spelling?`).  Names, numbers and strings have many, and the last
two carry a literal.

The end of the text is not a token.  A program text is a list of tokens
together with the line on which the text ends.
-/

namespace ClassScript

/-- A value that can be written down in a program. -/
inductive Literal where
  | nil
  | boolean (value : Bool)
  | number (value : Float)
  | string (value : String)
deriving DecidableEq, Repr

/-- The kinds of tokens: symbols, then names, strings and numbers, then the
keywords. -/
inductive TokenKind where
  | leftParen | rightParen | leftBrace | rightBrace | comma | dot | minus | plus
  | semicolon | slash | star
  | bang | bangEqual | equal | equalEqual | greater | greaterEqual | less | lessEqual
  | identifier | string | number
  | andKw | breakKw | classKw | elifKw | elseKw | falseKw | forKw | funKw | ifKw
  | nilKw | orKw | printKw | returnKw | superKw | thisKw | trueKw | varKw | whileKw
deriving DecidableEq, Repr

namespace TokenKind

/-- The name of a kind in listings of tokens and trees. -/
def name : TokenKind → String
  | leftParen => "LEFT_PAREN"
  | rightParen => "RIGHT_PAREN"
  | leftBrace => "LEFT_BRACE"
  | rightBrace => "RIGHT_BRACE"
  | comma => "COMMA"
  | dot => "DOT"
  | minus => "MINUS"
  | plus => "PLUS"
  | semicolon => "SEMICOLON"
  | slash => "SLASH"
  | star => "STAR"
  | bang => "BANG"
  | bangEqual => "BANG_EQUAL"
  | equal => "EQUAL"
  | equalEqual => "EQUAL_EQUAL"
  | greater => "GREATER"
  | greaterEqual => "GREATER_EQUAL"
  | less => "LESS"
  | lessEqual => "LESS_EQUAL"
  | identifier => "IDENTIFIER"
  | string => "STRING"
  | number => "NUMBER"
  | andKw => "AND"
  | breakKw => "BREAK"
  | classKw => "CLASS"
  | elifKw => "ELIF"
  | elseKw => "ELSE"
  | falseKw => "FALSE"
  | forKw => "FOR"
  | funKw => "FUN"
  | ifKw => "IF"
  | nilKw => "NIL"
  | orKw => "OR"
  | printKw => "PRINT"
  | returnKw => "RETURN"
  | superKw => "SUPER"
  | thisKw => "THIS"
  | trueKw => "TRUE"
  | varKw => "VAR"
  | whileKw => "WHILE"

/-- The one spelling of a symbol or a keyword.  Names, strings and numbers
have none. -/
def spelling? : TokenKind → Option String
  | leftParen => some "("
  | rightParen => some ")"
  | leftBrace => some "\x7b"
  | rightBrace => some "\x7d"
  | comma => some ","
  | dot => some "."
  | minus => some "-"
  | plus => some "+"
  | semicolon => some ";"
  | slash => some "/"
  | star => some "*"
  | bang => some "!"
  | bangEqual => some "!="
  | equal => some "="
  | equalEqual => some "=="
  | greater => some ">"
  | greaterEqual => some ">="
  | less => some "<"
  | lessEqual => some "<="
  | identifier | string | number => none
  | andKw => some "and"
  | breakKw => some "break"
  | classKw => some "class"
  | elifKw => some "elif"
  | elseKw => some "else"
  | falseKw => some "false"
  | forKw => some "for"
  | funKw => some "fun"
  | ifKw => some "if"
  | nilKw => some "nil"
  | orKw => some "or"
  | printKw => some "print"
  | returnKw => some "return"
  | superKw => some "super"
  | thisKw => some "this"
  | trueKw => some "true"
  | varKw => some "var"
  | whileKw => some "while"

/-- The keywords, each a kind of its own. -/
def keywords : List TokenKind :=
  [andKw, breakKw, classKw, elifKw, elseKw, falseKw, forKw, funKw, ifKw, nilKw, orKw,
    printKw, returnKw, superKw, thisKw, trueKw, varKw, whileKw]

/-- The kind of a word: the keyword that is spelled so, or else a name. -/
def ofWord (word : String) : TokenKind :=
  (keywords.find? fun k => k.spelling? = some word).getD identifier

/-- The symbols of a single character that no other symbol begins with. -/
def ofSingle? : Char → Option TokenKind
  | '(' => some leftParen
  | ')' => some rightParen
  | '\x7b' => some leftBrace
  | '\x7d' => some rightBrace
  | ',' => some comma
  | '.' => some dot
  | '-' => some minus
  | '+' => some plus
  | ';' => some semicolon
  | '*' => some star
  | _ => none

/-- The symbols that may be followed by an equals sign, alone and with it. -/
def ofRelational? : Char → Option (TokenKind × TokenKind)
  | '!' => some (bang, bangEqual)
  | '=' => some (equal, equalEqual)
  | '>' => some (greater, greaterEqual)
  | '<' => some (less, lessEqual)
  | _ => none

end TokenKind

/-- A token of a program text. -/
structure Token where
  /-- What kind of token it is. -/
  kind : TokenKind
  /-- The text as it stands in the program. -/
  text : String
  /-- The value of a number or a string. -/
  literal : Option Literal
  /-- The line on which the token ends. -/
  line : Nat
deriving DecidableEq, Repr

end ClassScript
