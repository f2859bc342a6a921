/-!
# Failures of a running program

A running program fails for one of the causes here.  The line of a failure is
that of the name, operator or closing parenthesis that is to blame.
-/

namespace ClassScript

/-- Why a running program fails. -/
inductive RuntimeError where
  | operandNotNumber
  | operandsNotNumbers
  | operandsNotAddable
  | divisionByZero
  | notCallable
  | wrongArgumentCount (expected given : Nat)
  | noProperties
  | noFields
  | superclassNotClass
  | undefinedVariable (name : String)
  | undefinedProperty (name : String)
  | unknownOperator (text : String)
  | stackOverflow
deriving DecidableEq, Repr

/-- The message of a cause. -/
def RuntimeError.message : RuntimeError → String
  | operandNotNumber => "Operand must be a number."
  | operandsNotNumbers => "Operands must be numbers."
  | operandsNotAddable => "Operands must be two numbers or at least one string."
  | divisionByZero => "Attempted division by zero."
  | notCallable => "Can only call functions and classes."
  | wrongArgumentCount expected given =>
      "Expected " ++ toString expected ++ " arguments but got " ++ toString given ++ "."
  | noProperties => "Only instances have properties."
  | noFields => "Only instances have fields."
  | superclassNotClass => "Superclass must be a class."
  | undefinedVariable name => "Undefined variable '" ++ name ++ "'."
  | undefinedProperty name => "Undefined property '" ++ name ++ "'."
  | unknownOperator text => "Unknown operator '" ++ text ++ "'."
  | stackOverflow => "Stack overflow."

/-- A failure: its cause and its line. -/
structure Failure where
  /-- The cause. -/
  error : RuntimeError
  /-- The line to blame. -/
  line : Nat
deriving DecidableEq, Repr

/-- The report of a failure, without the newline after it. -/
def Failure.text (f : Failure) : String :=
  f.error.message ++ "\n[line " ++ toString f.line ++ "]"

/-- The failure on a single line. -/
def Failure.summary (f : Failure) : String :=
  f.error.message ++ " [line " ++ toString f.line ++ "]"

end ClassScript
