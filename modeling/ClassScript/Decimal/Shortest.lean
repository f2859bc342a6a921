import ClassScript.Decimal.Basic

/-!
# The shortest decimal of a double

A double is printed with the fewest decimal digits that read back as the same
double.  Among the decimals of that length the one nearest to the double is
taken, and of two equally near ones the one whose last digit is even.

On the grid of decimals with `n` digits a double has two neighbours.  If any
decimal of the grid reads back, so does one of them, because the numbers that
read back as a double form an interval around it.  `shortest` therefore tries
the neighbours for one digit, two digits, and so on.  Seventeen digits always
suffice.  The exact decimal, which every double has, stands behind them, so
that a decimal that reads back is returned in any case.
-/

namespace ClassScript

/-- A nonnegative finite double, taken apart: `significand * 2 ^ exponent`. -/
structure Dyadic where
  /-- The significand, below `2 ^ 53`. -/
  significand : Nat
  /-- The power of two. -/
  exponent : Int
deriving DecidableEq, Repr

namespace Dyadic

/-- The nonnegative finite double with the given bits. -/
def ofBits (bits : Nat) : Dyadic :=
  let field : Nat := bits / Nat.pow 2 52
  let fraction : Nat := bits % Nat.pow 2 52
  if field = 0 then ⟨fraction, Binary64.leastExponent⟩
  else ⟨fraction + Nat.pow 2 52, Binary64.leastExponent + (field : Int) - 1⟩

/-- The numerator of the double as a quotient of natural numbers. -/
def numerator (x : Dyadic) : Nat := x.significand * Nat.pow 2 x.exponent.toNat

/-- The denominator of the double as a quotient of natural numbers. -/
def denominator (x : Dyadic) : Nat := Nat.pow 2 (-x.exponent).toNat

/-- The double as a decimal, digit for digit. -/
def exactDecimal (x : Dyadic) : Decimal :=
  if 0 ≤ x.exponent then ⟨x.numerator, 0⟩
  else ⟨x.significand * Nat.pow 5 (-x.exponent).toNat, x.exponent⟩

/-- The number of decimal digits of a natural number. -/
def digitCount (n : Nat) : Nat := (Nat.toDigits 10 n).length

/-- The position of the decimal point: the power of ten just above a positive
double, so that `10 ^ (p - 1) ≤ x < 10 ^ p`. -/
def pointPosition (x : Dyadic) : Int :=
  if x.denominator ≤ x.numerator then digitCount (x.numerator / x.denominator)
  else 1 - digitCount ((x.denominator - 1) / x.numerator)

/-- The neighbours of a double among the multiples of `10 ^ unit`, the nearer
one first; of two equally near ones the even one comes first. -/
def neighbours (x : Dyadic) (unit : Int) : List Decimal :=
  let n := x.numerator * Nat.pow 10 (-unit).toNat
  let d := x.denominator * Nat.pow 10 unit.toNat
  let below : Decimal := ⟨n / d, unit⟩
  let above : Decimal := ⟨n / d + 1, unit⟩
  if roundedQuotient n d = n / d then [below, above] else [above, below]

end Dyadic

/-- The shortest decimal that reads back as the nonnegative finite double with
the given bits. -/
def Decimal.shortest (bits : Nat) : Decimal :=
  let x := Dyadic.ofBits bits
  let point := x.pointPosition
  let found := (List.range 17).findSome? fun (n : Nat) =>
    (x.neighbours (point - 1 - (n : Int))).find? fun d => d.toBits = bits
  found.getD x.exactDecimal

end ClassScript
