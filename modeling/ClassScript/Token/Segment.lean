import ClassScript.Token.Basic

/-!
# Segments of a program text

A program text falls into *segments*: tokens, blanks, newlines, comments and
two kinds of mistakes.  Every segment is as long as its class allows.

* A symbol takes a following equals sign along where that makes a symbol.
* A word is a letter or underscore and all letters, digits and underscores
  after it.
* A number is a run of digits, with a fraction if a point and a digit follow.
* A string runs to the next quote and may hold newlines.
* A comment runs to the end of its line and does not include the newline.
* A quote that is never closed takes all the rest of the text.
* Any other character is a mistake of its own.

Letters and digits are those of ASCII, so a letter of another alphabet is a
mistake outside of strings and comments.

Nothing is lost: the segments in order are the text (`join_segments`).
-/

namespace ClassScript

/-! ## Classes of characters -/

/-- The decimal digits. -/
def isDigit (c : Char) : Bool := '0' ≤ c && c ≤ '9'

/-- The characters a word may begin with. -/
def isWordStart (c : Char) : Bool :=
  ('a' ≤ c && c ≤ 'z') || ('A' ≤ c && c ≤ 'Z') || c = '_'

/-- The characters a word may go on with. -/
def isWordPart (c : Char) : Bool := isWordStart c || isDigit c

/-! ## Segments -/

/-- What a segment is. -/
inductive SegmentKind where
  | token (kind : TokenKind)
  | blank
  | newline
  | comment
  | unterminated
  | unexpected
deriving DecidableEq, Repr

/-- A piece of a program text. -/
structure Segment where
  /-- What it is. -/
  kind : SegmentKind
  /-- Its characters. -/
  text : List Char
deriving DecidableEq, Repr

/-- A segment and the text after it. -/
abbrev Segment.Cut := Segment × List Char

namespace Segment

/-- The symbol that starts with one of `! = > <`. -/
def cutRelational (c : Char) (kinds : TokenKind × TokenKind) : List Char → Cut
  | '=' :: rest => (⟨.token kinds.2, [c, '=']⟩, rest)
  | rest => (⟨.token kinds.1, [c]⟩, rest)

/-- A comment, or else a slash. -/
def cutSlash : List Char → Cut
  | '/' :: rest =>
      (⟨.comment, '/' :: '/' :: rest.takeWhile (· ≠ '\n')⟩, rest.dropWhile (· ≠ '\n'))
  | rest => (⟨.token .slash, ['/']⟩, rest)

/-- The string whose opening quote stands before the text, or else the whole
text as an unterminated one. -/
def cutString (rest : List Char) : Cut :=
  let body := rest.takeWhile (· ≠ '"')
  match rest.dropWhile (· ≠ '"') with
  | quote :: after => (⟨.token .string, '"' :: (body ++ [quote])⟩, after)
  | [] => (⟨.unterminated, '"' :: body⟩, [])

/-- The number that starts with the digit `c`. -/
def cutNumber (c : Char) (rest : List Char) : Cut :=
  let whole := c :: rest.takeWhile isDigit
  match rest.dropWhile isDigit with
  | '.' :: d :: after =>
      if isDigit d then
        (⟨.token .number, whole ++ '.' :: d :: after.takeWhile isDigit⟩, after.dropWhile isDigit)
      else (⟨.token .number, whole⟩, '.' :: d :: after)
  | after => (⟨.token .number, whole⟩, after)

/-- The word that starts with the character `c`. -/
def cutWord (c : Char) (rest : List Char) : Cut :=
  let word := c :: rest.takeWhile isWordPart
  (⟨.token (.ofWord (String.ofList word)), word⟩, rest.dropWhile isWordPart)

/-- The first segment of a text that starts with the character `c`. -/
def cut (c : Char) (rest : List Char) : Cut :=
  match TokenKind.ofSingle? c with
  | some kind => (⟨.token kind, [c]⟩, rest)
  | none =>
    match TokenKind.ofRelational? c with
    | some kinds => cutRelational c kinds rest
    | none =>
      if c = '/' then cutSlash rest
      else if c = ' ' ∨ c = '\t' ∨ c = '\r' then (⟨.blank, [c]⟩, rest)
      else if c = '\n' then (⟨.newline, [c]⟩, rest)
      else if c = '"' then cutString rest
      else if isDigit c then cutNumber c rest
      else if isWordStart c then cutWord c rest
      else (⟨.unexpected, [c]⟩, rest)

/-! ## A cut loses nothing -/

theorem cutRelational_append (c : Char) (kinds : TokenKind × TokenKind) (rest : List Char) :
    (cutRelational c kinds rest).1.text ++ (cutRelational c kinds rest).2 = c :: rest := by
  unfold cutRelational
  split <;> simp

theorem cutSlash_append (rest : List Char) :
    (cutSlash rest).1.text ++ (cutSlash rest).2 = '/' :: rest := by
  unfold cutSlash
  split <;> simp

theorem cutString_append (rest : List Char) :
    (cutString rest).1.text ++ (cutString rest).2 = '"' :: rest := by
  have h := @List.takeWhile_append_dropWhile Char (· ≠ '"') rest
  unfold cutString
  split
  · next heq => rw [heq] at h; simpa using h
  · next heq => rw [heq] at h; simpa using h

theorem cutNumber_append (c : Char) (rest : List Char) :
    (cutNumber c rest).1.text ++ (cutNumber c rest).2 = c :: rest := by
  have h := @List.takeWhile_append_dropWhile Char isDigit rest
  unfold cutNumber
  split
  · next heq => rw [heq] at h; split <;> simpa using h
  · simp

theorem cutWord_append (c : Char) (rest : List Char) :
    (cutWord c rest).1.text ++ (cutWord c rest).2 = c :: rest := by
  simp [cutWord]

/-- The first segment and the text after it make up the whole text. -/
theorem cut_append (c : Char) (rest : List Char) :
    (cut c rest).1.text ++ (cut c rest).2 = c :: rest := by
  unfold cut
  split
  · simp
  split
  · exact cutRelational_append ..
  split
  · next h => rw [h]; exact cutSlash_append rest
  split
  · simp
  split
  · simp
  split
  · next h => rw [h]; exact cutString_append rest
  split
  · exact cutNumber_append c rest
  split
  · exact cutWord_append c rest
  · simp

/-- A segment starts with the character it is cut at, so it is never empty. -/
theorem head?_cut (c : Char) (rest : List Char) : (cut c rest).1.text.head? = some c := by
  unfold cut
  split
  · rfl
  split
  · unfold cutRelational; split <;> rfl
  split
  · next h => unfold cutSlash; rw [h]; split <;> rfl
  split
  · rfl
  split
  · rfl
  split
  · next h => unfold cutString; rw [h]; split <;> rfl
  split
  · unfold cutNumber
    split
    · split <;> rfl
    · rfl
  split
  · rfl
  · rfl

/-- What follows a segment is shorter than what it was cut from. -/
theorem length_cut_lt (c : Char) (rest : List Char) :
    (cut c rest).2.length < (c :: rest).length := by
  have h := head?_cut c rest
  rw [← cut_append c rest, List.length_append]
  cases htext : (cut c rest).1.text with
  | nil => simp [htext] at h
  | cons => simp

end Segment

/-- The segments of a text, in order. -/
def segments : List Char → List Segment
  | [] => []
  | c :: rest => (Segment.cut c rest).1 :: segments (Segment.cut c rest).2
termination_by text => text.length
decreasing_by exact Segment.length_cut_lt c rest

@[simp] theorem segments_nil : segments [] = [] := by rw [segments]

theorem segments_cons (c : Char) (rest : List Char) :
    segments (c :: rest) = (Segment.cut c rest).1 :: segments (Segment.cut c rest).2 := by
  rw [segments]

/-- The segments of a text, put together again, are the text. -/
theorem join_segments (text : List Char) : (segments text).flatMap Segment.text = text := by
  fun_induction segments text with
  | case1 => rfl
  | case2 c rest ih => rw [List.flatMap_cons, ih, Segment.cut_append]

end ClassScript
