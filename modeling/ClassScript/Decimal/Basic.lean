/-!
# Decimals and the double nearest to one

A *decimal* is a coefficient times a power of ten.  Every number a program can
write down is a decimal, and every number a program prints is one again, so
both directions meet in `Decimal.toFloat`, the double nearest to a decimal.

Rounding is to the nearest double and a tie goes to the even one.  It is done
in exact arithmetic on natural numbers: `nearestBits` scales a quotient to 53
binary digits, rounds it once, and packs the result.  A decimal beyond the
largest finite double becomes infinity, one below half of the least positive
double becomes zero.
-/

namespace ClassScript

/-- The number `coefficient * 10 ^ exponent`. -/
structure Decimal where
  /-- The decimal digits, read as one number. -/
  coefficient : Nat
  /-- The power of ten. -/
  exponent : Int
deriving DecidableEq, Repr

/-- The quotient of `n` by `d`, rounded to the nearest number; a tie goes to
the even one. -/
def roundedQuotient (n d : Nat) : Nat :=
  let q := n / d
  let r := n % d
  if 2 * r < d then q
  else if d < 2 * r then q + 1
  else if q % 2 = 0 then q
  else q + 1

namespace Binary64

/-- The exponent of the least positive double, `2 ^ leastExponent`. -/
def leastExponent : Int := -1074

/-- The bits of positive infinity. -/
def infinityBits : Nat := 0x7FF0000000000000

/-- The quotient `n / d`, divided by `2 ^ e` and rounded. -/
def scaledQuotient (n d : Nat) (e : Int) : Nat :=
  if 0 ≤ e then roundedQuotient n (d * Nat.pow 2 e.toNat)
  else roundedQuotient (n * Nat.pow 2 (-e).toNat) d

/-- Whether `n / d` is less than `2 ^ k`, for any integer `k`. -/
def ratioLtPow (n d : Nat) (k : Int) : Bool :=
  if 0 ≤ k then n < d * Nat.pow 2 k.toNat else n * Nat.pow 2 (-k).toNat < d

/-- The exponent at which the positive quotient `n / d` is rounded: the one
that leaves 53 binary digits, but never less than `leastExponent`. -/
def roundingExponent (n d : Nat) : Int :=
  let e : Int := (n.log2 : Int) - d.log2 - 52
  let e := if ratioLtPow n d (e + 52) then e - 1 else e
  max e leastExponent

/-- The bits of the double nearest to `n / d`.  A rounded significand that
reaches `2 ^ 53` carries into the exponent field by itself. -/
def nearestBits (n d : Nat) : Nat :=
  if n = 0 then 0
  else
    let e := roundingExponent n d
    min ((e - leastExponent).toNat * Nat.pow 2 52 + scaledQuotient n d e) infinityBits

end Binary64

namespace Decimal

/-- The bits of the double nearest to a decimal. -/
def toBits (d : Decimal) : Nat :=
  if 0 ≤ d.exponent then Binary64.nearestBits (d.coefficient * Nat.pow 10 d.exponent.toNat) 1
  else Binary64.nearestBits d.coefficient (Nat.pow 10 (-d.exponent).toNat)

/-- The double nearest to a decimal. -/
def toFloat (d : Decimal) : Float :=
  Float.ofBits d.toBits.toUInt64

/-- The decimal written as digits, optionally followed by a point and more
digits. -/
def ofDigits (whole fraction : List Char) : Decimal :=
  ⟨Nat.ofDigitChars 10 (whole ++ fraction) 0, -(fraction.length : Int)⟩

end Decimal

end ClassScript
