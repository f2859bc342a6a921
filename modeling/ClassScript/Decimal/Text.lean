import ClassScript.Decimal.Shortest

/-!
# The text of a number

A number has two texts.  The *full* text always shows that it is a number with
a fraction: it has a point or an exponent, or is one of `inf`, `-inf` and
`nan`.  The *printed* text is the full text without a final `.0`.

The digits are those of `Decimal.shortest`.  They are written positionally
when the decimal exponent lies between -4 and 15, and as one digit, a fraction
and an exponent of at least two digits with its sign otherwise.
-/

namespace ClassScript

namespace Decimal

/-- The significant digits of a decimal, without zeros at the end, and the
position of its point: the number is `0.d₁d₂… * 10 ^ point`. -/
def significantDigits (d : Decimal) : List Char × Int :=
  let digits := Nat.toDigits 10 d.coefficient
  let point : Int := digits.length + d.exponent
  ((digits.reverse.dropWhile (· = '0')).reverse, point)

/-- Digits around a decimal point, with at least one digit on either side. -/
def positional (digits : List Char) (point : Int) : List Char :=
  if point ≤ 0 then
    '0' :: '.' :: (List.replicate (-point).toNat '0' ++ digits)
  else if digits.length ≤ point.toNat then
    digits ++ List.replicate (point.toNat - digits.length) '0' ++ ['.', '0']
  else
    digits.take point.toNat ++ '.' :: digits.drop point.toNat

/-- The sign and the digits of a decimal exponent, at least two of them. -/
def exponentText (e : Int) : List Char :=
  let digits := Nat.toDigits 10 e.natAbs
  (if e < 0 then '-' else '+') :: (if digits.length < 2 then '0' :: digits else digits)

/-- One digit, the others behind a point, and the exponent. -/
def scientific (digits : List Char) (point : Int) : List Char :=
  let significand := match digits with
    | [] => []
    | [d] => [d]
    | d :: rest => d :: '.' :: rest
  significand ++ 'e' :: exponentText (point - 1)

/-- The full text of a positive decimal. -/
def text (d : Decimal) : List Char :=
  let (digits, point) := d.significantDigits
  if -4 < point ∧ point ≤ 16 then positional digits point else scientific digits point

end Decimal

namespace Number

/-- The full text of a nonnegative number, from its bits. -/
def magnitudeText (bits : Nat) : List Char :=
  if bits = 0 then ['0', '.', '0']
  else if bits = Binary64.infinityBits then ['i', 'n', 'f']
  else (Decimal.shortest bits).text

/-- The full text of a number. -/
def fullText (x : Float) : List Char :=
  let bits := x.toBits.toNat
  let magnitude := bits % Nat.pow 2 63
  if Binary64.infinityBits < magnitude then ['n', 'a', 'n']
  else if magnitude = bits then magnitudeText magnitude
  else '-' :: magnitudeText magnitude

/-- A text without the ending `.0`, if it has that ending. -/
def withoutPointZero : List Char → List Char
  | [] => []
  | ['.', '0'] => []
  | c :: rest => c :: withoutPointZero rest

/-- The printed text of a number. -/
def printedText (x : Float) : List Char := withoutPointZero (fullText x)

end Number

end ClassScript
