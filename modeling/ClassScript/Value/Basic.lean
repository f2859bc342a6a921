import ClassScript.Decimal.Text
import ClassScript.Scope.Binding
import ClassScript.Slots

/-!
# Values

Values are nil, booleans, numbers, strings, functions, classes and objects.

A function is code together with the environment in which it was made.  A
class holds its methods and its superclass, and neither ever changes, so a
class is a plain value and the chain of its superclasses is finite by
construction.  What changes while a program runs, variables and fields, is
kept outside of values; a value names the environment or the object it lives
in.

Functions, classes and objects carry a number that tells them apart from all
others of their kind.
-/

namespace ClassScript

/-- The number of an environment. -/
structure EnvId where
  /-- Its position in the order in which environments are made. -/
  index : Nat
deriving DecidableEq, Repr

/-- The number of an object. -/
structure ObjectId where
  /-- Its position in the order in which objects are made. -/
  index : Nat
deriving DecidableEq, Repr

/-- The functions that every program finds among its globals. -/
inductive Native where
  /-- The time in seconds. -/
  | clock
deriving DecidableEq, Repr

/-- The name under which a native function is found. -/
def Native.name : Native → String
  | clock => "clock"

/-- The number of arguments of a native function. -/
def Native.arity : Native → Nat
  | clock => 0

/-- Code with the environment in which it was made. -/
structure Closure where
  /-- The name of the function, if it has one. -/
  name : Option String
  /-- The names of its parameters. -/
  parameters : List Name
  /-- What it runs. -/
  body : List (Stmt Binding)
  /-- The environment in which it was made. -/
  scope : EnvId
  /-- Whether it is the initializer of a class. -/
  isInitializer : Bool

/-- A class. -/
inductive Class where
  | mk (id : Nat) (name : String) (superclass : Option Class) (methods : Slots Closure)

/-- The values of a program. -/
inductive Value where
  | nil
  | boolean (value : Bool)
  | number (value : Float)
  | string (value : String)
  | function (id : Nat) (code : Closure)
  | native (id : Nat) (function : Native)
  | classRef (definition : Class)
  | object (id : ObjectId) (definition : Class)

instance : Inhabited Value := ⟨.nil⟩

/-- The value of a literal. -/
def Value.ofLiteral : Literal → Value
  | .nil => .nil
  | .boolean b => .boolean b
  | .number x => .number x
  | .string s => .string s

/-! ## Classes and functions -/

namespace Class

/-- The number of a class. -/
def id : Class → Nat
  | mk id _ _ _ => id

/-- The name of a class. -/
def name : Class → String
  | mk _ name _ _ => name

/-- The superclass of a class, if it has one. -/
def superclass : Class → Option Class
  | mk _ _ superclass _ => superclass

/-- The methods of a class, its own ones only. -/
def methods : Class → Slots Closure
  | mk _ _ _ methods => methods

/-- The method of the given name: that of the class, or else of the closest
superclass that has one. -/
def findMethod? (method : String) : Class → Option Closure
  | mk _ _ superclass methods =>
    match methods.get? method with
    | some code => some code
    | none =>
      match superclass with
      | none => none
      | some parent => findMethod? method parent

/-- The number of arguments that make an instance of a class. -/
def arity (c : Class) : Nat :=
  match c.findMethod? initializerName with
  | none => 0
  | some code => code.parameters.length

end Class

/-- The text by which a function without a name is known. -/
def anonymousName : String := "anonymous"

namespace Value

/-- The number of arguments that a value is called with, if it can be
called. -/
def arity? : Value → Option Nat
  | function _ code => some code.parameters.length
  | native _ f => some f.arity
  | classRef c => some c.arity
  | _ => none

/-! ## Texts -/

/-- The printed form of a value. -/
def text : Value → String
  | nil => "nil"
  | boolean true => "true"
  | boolean false => "false"
  | number x => String.ofList (Number.printedText x)
  | string s => s
  | function _ code => "<fn " ++ code.name.getD anonymousName ++ ">"
  | native _ _ => "<native fn>"
  | classRef c => c.name
  | object _ c => c.name ++ " instance"

/-- The name of the type of a value. -/
def typeName : Value → String
  | nil => "nil"
  | boolean _ => "boolean"
  | number _ => "number"
  | string _ => "string"
  | function _ _ => "function"
  | native _ _ => "function"
  | classRef _ => "class"
  | object _ _ => "instance"

/-! ## Truth and equality -/

/-- Whether a condition with this value holds.  Only nil and false do not. -/
def isTruthy : Value → Bool
  | nil => false
  | boolean b => b
  | _ => true

/-- Whether two values are equal.  Numbers are compared as numbers, so no
number equals itself if it is not a number; functions, classes and objects
equal only themselves. -/
def isEqual : Value → Value → Bool
  | nil, nil => true
  | boolean a, boolean b => a = b
  | number x, number y => x == y
  | string s, string t => s = t
  | function i _, function j _ => i = j
  | native i _, native j _ => i = j
  | classRef c, classRef d => c.id = d.id
  | object i _, object j _ => i = j
  | _, _ => false

end Value

end ClassScript
