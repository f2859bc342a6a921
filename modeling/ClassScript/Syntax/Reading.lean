import ClassScript.Syntax.Grammar
import ClassScript.Token.Scan

/-!
# Reading program texts

A program text is read in two steps: it is divided into tokens, and the grammar
finds the program in them.  Both steps are always taken, so a reading has the
mistakes of the first step before those of the second.
-/

namespace ClassScript

/-- What a program text says. -/
structure Reading where
  /-- The statements that could be read. -/
  program : Program Unit
  /-- The mistakes, in order. -/
  diagnostics : List Diagnostic

/-- What a divided program text says. -/
def Reading.ofScan (scan : Scan) : Reading :=
  let parse := Parse.ofTokens scan.tokens
  { program := parse.program
    diagnostics :=
      scan.diagnostics ++ parse.mistakes.map (Mistake.diagnostic scan.tokens scan.endLine) }

/-- What a program text says. -/
def Reading.ofSource (source : String) : Reading := .ofScan (.ofSource source)

end ClassScript
