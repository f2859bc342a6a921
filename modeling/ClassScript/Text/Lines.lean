/-!
# Lines

A text that comes from outside may end its lines with a newline, with a
carriage return, or with both in this order.  `normalizeNewlines` makes each of
them a newline.  `lines` are the lines of a text as they are read one by one:
what stands behind the last newline is a line of its own unless it is empty.
-/

namespace ClassScript.Text

/-- Every line end as a newline. -/
def normalizeChars : List Char → List Char
  | [] => []
  | '\r' :: '\n' :: rest => '\n' :: normalizeChars rest
  | c :: rest => (if c = '\r' then '\n' else c) :: normalizeChars rest

/-- A text with every line end as a newline. -/
def normalizeNewlines (text : String) : String := String.ofList (normalizeChars text.toList)

/-- The lines of a text, the first of which starts with the given characters in
reverse. -/
def linesFrom : (start text : List Char) → List String
  | [], [] => []
  | start, [] => [String.ofList start.reverse]
  | start, c :: rest =>
    if c = '\n' then String.ofList start.reverse :: linesFrom [] rest
    else linesFrom (c :: start) rest

/-- The lines of a text whose lines end with newlines. -/
def lines (text : String) : List String := linesFrom [] text.toList

end ClassScript.Text
