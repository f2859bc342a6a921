import ClassScript.Decimal.Basic
import ClassScript.Diagnostic
import ClassScript.Token.Segment

/-!
# The tokens of a program text

Each token segment becomes a token, each mistaken segment a diagnostic, and
blanks, newlines and comments become nothing.  Lines are counted along the way.
A newline between tokens ends a line, and so does each newline in a string.  A
token or a diagnostic has the line on which its segment ends.  So a string over
several lines has the line of its closing quote, and an unterminated string is
reported on the last line of the text.

A mistake never stops the scan.
-/

namespace ClassScript

/-- What a program text holds. -/
structure Scan where
  /-- The tokens, in order. -/
  tokens : List Token
  /-- The mistakes, in order. -/
  diagnostics : List Diagnostic
  /-- The line on which the text ends. -/
  endLine : Nat
deriving DecidableEq, Repr

/-- The number of newlines in a text. -/
def newlines (text : List Char) : Nat := text.count '\n'

/-- The value of a number token. -/
def Literal.ofNumberText (text : List Char) : Literal :=
  .number (Decimal.ofDigits (text.takeWhile (· ≠ '.')) ((text.dropWhile (· ≠ '.')).drop 1)).toFloat

/-- The value of a string token: the text between its quotes. -/
def Literal.ofStringText (text : List Char) : Literal :=
  .string (String.ofList (text.drop 1).dropLast)

/-- The value that a token of the given kind and text carries. -/
def Literal.ofToken? (kind : TokenKind) (text : List Char) : Option Literal :=
  match kind with
  | .number => some (.ofNumberText text)
  | .string => some (.ofStringText text)
  | _ => none

/-- The token of a segment that ends on the given line, if it is one. -/
def Segment.token? (line : Nat) (s : Segment) : Option Token :=
  match s.kind with
  | .token kind => some ⟨kind, String.ofList s.text, Literal.ofToken? kind s.text, line⟩
  | _ => none

/-- The mistake that a segment which ends on the given line is, if it is one. -/
def Segment.diagnostic? (line : Nat) (s : Segment) : Option Diagnostic :=
  match s.kind with
  | .unexpected => some ⟨line, .line, .lexical .unexpectedCharacter⟩
  | .unterminated => some ⟨line, .line, .lexical .unterminatedString⟩
  | _ => none

/-- How many lines a segment takes up but for the last one.  Newlines are looked for in strings,
and any other newline is a segment of its own. -/
def Segment.lineBreaks (s : Segment) : Nat :=
  match s.kind with
  | .newline => 1
  | .token .string | .unterminated => newlines s.text
  | _ => 0

/-- Each segment with the line it ends on, and the line on which the last one ends, for a text
that starts on the given line. -/
def countLines (line : Nat) : List Segment → List (Nat × Segment) × Nat
  | [] => ([], line)
  | s :: rest =>
    let after := countLines (line + s.lineBreaks) rest
    ((line + s.lineBreaks, s) :: after.1, after.2)

/-- What a list of characters holds, read as a program text. -/
def Scan.ofChars (text : List Char) : Scan :=
  let counted := countLines 1 (segments text)
  { tokens := counted.1.filterMap fun s => s.2.token? s.1
    diagnostics := counted.1.filterMap fun s => s.2.diagnostic? s.1
    endLine := counted.2 }

/-- What a program text holds. -/
def Scan.ofSource (source : String) : Scan := Scan.ofChars source.toList

end ClassScript
