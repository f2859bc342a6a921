/-!
# Diagnostics

Three stages look for mistakes before a program runs, and each has its causes:
the division into tokens (`LexicalError`), the grammar (`SyntaxError`) and the
rules for names (`ScopeError`).  A *diagnostic* is a cause with the line it is
reported on and the text it blames.  `Diagnostic.text` is the one place where a
diagnostic gets its wording.
-/

namespace ClassScript

/-- Mistakes in the division of a text into tokens. -/
inductive LexicalError where
  | unexpectedCharacter
  | unterminatedString
deriving DecidableEq, Repr

/-- The message of a lexical mistake. -/
def LexicalError.message : LexicalError → String
  | unexpectedCharacter => "Unexpected character."
  | unterminatedString => "Unterminated string."

/-- The two kinds of named functions. -/
inductive FunctionKind where
  | function
  | method
deriving DecidableEq, Repr

/-- The word for a kind of function. -/
def FunctionKind.word : FunctionKind → String
  | function => "function"
  | method => "method"

/-- What the grammar asks for at a place where the program has something
else. -/
inductive Expectation where
  | className | superclassName | classBodyStart | classBodyEnd
  | functionName (kind : FunctionKind)
  | functionParameters (kind : FunctionKind)
  | functionBody (kind : FunctionKind)
  | lambdaParameters
  | parameterName | parametersEnd
  | variableName | variableEnd
  | forClauses | forConditionEnd | forClausesEnd
  | ifCondition | ifConditionEnd
  | elifCondition | elifConditionEnd
  | whileCondition | whileConditionEnd
  | printEnd | returnEnd | breakEnd | blockEnd | expressionEnd
  | expression | groupingEnd | argumentsEnd
  | propertyName | superDot | superMethodName
deriving DecidableEq, Repr

/-- The message for a missing part. -/
def Expectation.message : Expectation → String
  | className => "Expect class name."
  | superclassName => "Expect superclass name."
  | classBodyStart => "Expect '\x7b' before class body."
  | classBodyEnd => "Expect '\x7d' after class body."
  | functionName kind => "Expect " ++ kind.word ++ " name."
  | functionParameters kind => "Expect '(' after " ++ kind.word ++ " name."
  | functionBody kind => "Expect '\x7b' before " ++ kind.word ++ " body."
  | lambdaParameters => "Expect '(' after 'fun'."
  | parameterName => "Expect parameter name."
  | parametersEnd => "Expect ')' after parameters."
  | variableName => "Expect variable name."
  | variableEnd => "Expect ';' after variable declaration."
  | forClauses => "Expect '(' after 'for'."
  | forConditionEnd => "Expect ';' after loop condition."
  | forClausesEnd => "Expect ')' after for clauses."
  | ifCondition => "Expect '(' after 'if'."
  | ifConditionEnd => "Expect ')' after if condition."
  | elifCondition => "Expect '(' after 'elif'."
  | elifConditionEnd => "Expect ')' after elif condition."
  | whileCondition => "Expect '(' after 'while'."
  | whileConditionEnd => "Expect ')' after condition."
  | printEnd => "Expect ';' after value."
  | returnEnd => "Expect ';' after return value."
  | breakEnd => "Expect ';' after 'break'."
  | blockEnd => "Expect '\x7d' after block."
  | expressionEnd => "Expect ';' after expression."
  | expression => "Expect expression."
  | groupingEnd => "Expect ')' after expression."
  | argumentsEnd => "Expect ')' after arguments."
  | propertyName => "Expect property name after '.'."
  | superDot => "Expect '.' after 'super'."
  | superMethodName => "Expect superclass method name."

/-- Mistakes in the grammar of a program. -/
inductive SyntaxError where
  | expected (what : Expectation)
  | invalidAssignmentTarget
  | tooManyParameters
  | tooManyArguments
deriving DecidableEq, Repr

/-- The largest number of parameters of a function and of arguments of a
call. -/
def maxArguments : Nat := 255

/-- The message of a mistake in the grammar. -/
def SyntaxError.message : SyntaxError → String
  | expected what => what.message
  | invalidAssignmentTarget => "Invalid assignment target."
  | tooManyParameters => "Can't have more than " ++ toString maxArguments ++ " parameters."
  | tooManyArguments => "Can't have more than " ++ toString maxArguments ++ " arguments."

/-- Mistakes in the use of names, classes and functions that show before a
program runs. -/
inductive ScopeError where
  | alreadyDeclared
  | readInOwnInitializer
  | returnAtTopLevel
  | returnValueFromInitializer
  | inheritsFromItself
  | thisOutsideClass
  | superOutsideClass
  | superWithoutSuperclass
deriving DecidableEq, Repr

/-- The message of a mistake in the use of names. -/
def ScopeError.message : ScopeError → String
  | alreadyDeclared => "Already a variable with this name in this scope."
  | readInOwnInitializer => "Can't read local variable in its own initializer."
  | returnAtTopLevel => "Can't return from top-level code."
  | returnValueFromInitializer => "Can't return a value from an initializer."
  | inheritsFromItself => "A class can't inherit from itself."
  | thisOutsideClass => "Can't use 'this' outside of a class."
  | superOutsideClass => "Can't use 'super' outside of a class."
  | superWithoutSuperclass => "Can't use 'super' in a class with no superclass."

/-- The cause of a diagnostic, with the stage that found it. -/
inductive Problem where
  | lexical (error : LexicalError)
  | grammar (error : SyntaxError)
  | scope (error : ScopeError)
deriving DecidableEq, Repr

/-- The message of a cause. -/
def Problem.message : Problem → String
  | lexical error => error.message
  | grammar error => error.message
  | scope error => error.message

/-- What a diagnostic blames: nothing but its line, the end of the program, or
a piece of its text. -/
inductive Culprit where
  | line
  | endOfText
  | text (text : String)
deriving DecidableEq, Repr

/-- The words that name what is blamed. -/
def Culprit.words : Culprit → String
  | line => ""
  | endOfText => " at end"
  | text t => " at '" ++ t ++ "'"

/-- A mistake found before a program runs. -/
structure Diagnostic where
  /-- The line it is reported on. -/
  line : Nat
  /-- What it blames. -/
  culprit : Culprit
  /-- What is wrong. -/
  problem : Problem
deriving DecidableEq, Repr

/-- The report of a diagnostic, without the newline after it. -/
def Diagnostic.text (d : Diagnostic) : String :=
  "[line " ++ toString d.line ++ "] Error" ++ d.culprit.words ++ ": " ++ d.problem.message

end ClassScript
