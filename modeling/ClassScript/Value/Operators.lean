import ClassScript.Failure
import ClassScript.Value.Basic

/-!
# Operators on values

Arithmetic and ordering take two numbers.  A string on either side of `+`
makes it join the printed forms of both sides.  Every two values can be
compared for equality.
-/

namespace ClassScript

/-- Two numbers, if both values are numbers. -/
@[inline] def Value.numbers? : Value → Value → Option (Float × Float)
  | .number x, .number y => some (x, y)
  | _, _ => none

/-- Whether a value is a string. -/
def Value.isString : Value → Bool
  | .string _ => true
  | _ => false

/-- The sum of two numbers, or the texts of two values joined if one is a
string. -/
def Value.add (a b : Value) : Except RuntimeError Value :=
  match Value.numbers? a b with
  | some (x, y) => .ok (.number (x + y))
  | none =>
    if a.isString || b.isString then .ok (.string (a.text ++ b.text))
    else .error .operandsNotAddable

/-- An operator that takes two numbers. -/
@[inline] def Value.onNumbers (f : Float → Float → Except RuntimeError Value) (a b : Value) :
    Except RuntimeError Value :=
  match Value.numbers? a b with
  | some (x, y) => f x y
  | none => .error .operandsNotNumbers

/-- The quotient of two numbers.  Neither zero may be divided by. -/
def quotient (x y : Float) : Except RuntimeError Value :=
  if y == 0 then .error .divisionByZero else .ok (.number (x / y))

/-- The value of a binary operator. -/
def BinaryOp.apply (op : BinaryOp) (a b : Value) : Except RuntimeError Value :=
  match op with
  | .add => Value.add a b
  | .equal => .ok (.boolean (a.isEqual b))
  | .notEqual => .ok (.boolean (!a.isEqual b))
  | .subtract => Value.onNumbers (fun x y => .ok (.number (x - y))) a b
  | .multiply => Value.onNumbers (fun x y => .ok (.number (x * y))) a b
  | .divide => Value.onNumbers quotient a b
  | .greater => Value.onNumbers (fun x y => .ok (.boolean (x > y))) a b
  | .greaterEqual => Value.onNumbers (fun x y => .ok (.boolean (x ≥ y))) a b
  | .less => Value.onNumbers (fun x y => .ok (.boolean (x < y))) a b
  | .lessEqual => Value.onNumbers (fun x y => .ok (.boolean (x ≤ y))) a b

/-- The value of whatever operator a token stands for.  A token that stands for
none is refused once its operands are numbers. -/
def TokenKind.applyOperator (kind : TokenKind) (text : String) (a b : Value) :
    Except RuntimeError Value :=
  match BinaryOp.ofToken? kind with
  | some op => op.apply a b
  | none => Value.onNumbers (fun _ _ => .error (.unknownOperator text)) a b

/-- The value of a unary operator. -/
def UnaryOp.apply (op : UnaryOp) (a : Value) : Except RuntimeError Value :=
  match op with
  | .not => .ok (.boolean (!a.isTruthy))
  | .negate =>
    match a with
    | .number x => .ok (.number (-x))
    | _ => .error .operandNotNumber

/-- Whether the left operand decides the value of a logical operator. -/
def LogicalOp.decides (op : LogicalOp) (a : Value) : Bool :=
  match op with
  | .or => a.isTruthy
  | .and => !a.isTruthy

end ClassScript
