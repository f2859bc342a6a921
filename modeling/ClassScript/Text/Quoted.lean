import ClassScript.Text.Printable

/-!
# Quoted names

A name is quoted with single quotes, or with double quotes if it holds a single
quote and no double one.  The quote around it and the backslash are escaped,
and so is every character that is not printable.  A list of quoted names stands
in brackets.
-/

namespace ClassScript.Quoted

/-- The quote that stands around a text. -/
def quoteFor (text : List Char) : Char :=
  if text.contains '\'' && !text.contains '"' then '"' else '\''

/-- A number in hexadecimal digits, with zeros in front up to a width. -/
def hexDigits (width n : Nat) : List Char :=
  let digits := Nat.toDigits 16 n
  List.replicate (width - digits.length) '0' ++ digits

/-- The escape of a character by its number, in two, four or eight digits. -/
def numericEscape (c : Char) : List Char :=
  let n := c.toNat
  if n < 0x100 then '\\' :: 'x' :: hexDigits 2 n
  else if n < 0x10000 then '\\' :: 'u' :: hexDigits 4 n
  else '\\' :: 'U' :: hexDigits 8 n

/-- A character as it stands between quotes. -/
def escapeChar (quote c : Char) : List Char :=
  if c = quote ∨ c = '\\' then ['\\', c]
  else if c = '\n' then ['\\', 'n']
  else if c = '\r' then ['\\', 'r']
  else if c = '\t' then ['\\', 't']
  else if Text.isPrintable c then [c]
  else numericEscape c

/-- A name in quotes. -/
def quote (name : String) : String :=
  let text := name.toList
  let mark := quoteFor text
  String.ofList (mark :: (text.flatMap (escapeChar mark) ++ [mark]))

/-- Names in quotes, with commas between them, in brackets. -/
def bracketed (names : List String) : String :=
  "[" ++ ", ".intercalate (names.map quote) ++ "]"

/-- Names in the order of their characters. -/
def sorted (names : List String) : List String := names.mergeSort fun a b => a ≤ b

end ClassScript.Quoted
