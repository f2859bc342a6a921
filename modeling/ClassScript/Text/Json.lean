import ClassScript.Decimal.Text

/-!
# JSON text

A JSON value is written over several lines: the items of an array and the
members of an object stand on lines of their own, two blanks deeper than the
brackets around them, and an empty array is `[]`.  Members keep their order.

In a string the quote, the backslash and the control characters are escaped
and nothing else is, so letters of every alphabet stand as they are.  A number
has its full text, and infinity is written as a word.
-/

namespace ClassScript

/-- A JSON value. -/
inductive Json where
  | null
  | boolean (value : Bool)
  | integer (value : Nat)
  | number (value : Float)
  | string (value : String)
  | array (items : List Json)
  | object (members : List (String × Json))

namespace Json

/-! ## Strings -/

/-- The escape that four hexadecimal digits make. -/
def hexEscape (c : Char) : List Char :=
  '\\' :: 'u' :: (List.replicate (4 - (Nat.toDigits 16 c.toNat).length) '0'
    ++ Nat.toDigits 16 c.toNat)

/-- A character as it stands in a string. -/
def escapeChar (c : Char) : List Char :=
  if c = '"' then ['\\', '"']
  else if c = '\\' then ['\\', '\\']
  else if c = '\n' then ['\\', 'n']
  else if c = '\r' then ['\\', 'r']
  else if c = '\t' then ['\\', 't']
  else if c = '\x08' then ['\\', 'b']
  else if c = '\x0c' then ['\\', 'f']
  else if c.toNat < 32 then hexEscape c
  else [c]

/-- A string with its quotes. -/
def quote (s : String) : List Char :=
  '"' :: (s.toList.flatMap escapeChar ++ ['"'])

/-! ## Numbers -/

/-- The text of a number. -/
def numberText (x : Float) : List Char :=
  let magnitude := x.toBits.toNat % Nat.pow 2 63
  if magnitude < Binary64.infinityBits then Number.fullText x
  else if Binary64.infinityBits < magnitude then "NaN".toList
  else if magnitude = x.toBits.toNat then "Infinity".toList
  else "-Infinity".toList

/-! ## Values -/

/-- A new line, indented by two blanks for each level. -/
def newline (level : Nat) : List Char := '\n' :: List.replicate (2 * level) ' '

mutual

/-- The text of a value whose first line stands at the given level. -/
def render (level : Nat) : Json → List Char
  | null => "null".toList
  | boolean true => "true".toList
  | boolean false => "false".toList
  | integer n => Nat.toDigits 10 n
  | number x => numberText x
  | string s => quote s
  | array [] => ['[', ']']
  | array (item :: items) =>
      '[' :: (newline (level + 1) ++ render (level + 1) item ++ renderItems (level + 1) items
        ++ newline level ++ [']'])
  | object [] => ['\x7b', '\x7d']
  | object ((key, value) :: members) =>
      '\x7b' :: (newline (level + 1) ++ quote key ++ ':' :: ' ' :: render (level + 1) value
        ++ renderMembers (level + 1) members ++ newline level ++ ['\x7d'])

/-- The further items of an array, each behind a comma. -/
def renderItems (level : Nat) : List Json → List Char
  | [] => []
  | item :: items => ',' :: (newline level ++ render level item ++ renderItems level items)

/-- The further members of an object, each behind a comma. -/
def renderMembers (level : Nat) : List (String × Json) → List Char
  | [] => []
  | (key, value) :: members =>
      ',' :: (newline level ++ quote key ++ ':' :: ' ' :: render level value
        ++ renderMembers level members)

end

/-- The text of a JSON value. -/
def text (j : Json) : String := String.ofList (j.render 0)

end Json

end ClassScript
