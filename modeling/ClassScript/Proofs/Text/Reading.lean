import ClassScript.Proofs.Text.Numbers

/-!
# Reading JSON texts

`Json.ofText` reads the text of a JSON value, and every value is read back from its text
(`Json.ofText_text`).  Blanks and new lines may stand between the parts of a text.  A *word* is a
number or a constant.  It goes on as long as its characters do, so what follows a value must not
start with a character of a word.

The reader counts its calls down from a limit.  Each call for a part of a value is behind at least
one character, so the length of the text is limit enough.
-/

namespace ClassScript.Json

open Number (isWordPart)

/-! ## The reader -/

/-- The text without the blanks and new lines in front. -/
def skipBlanks (text : List Char) : List Char :=
  text.dropWhile fun c => c = ' ' || c = '\n'

/-- The number that a hexadecimal digit stands for. -/
def ofHexDigit (c : Char) : Nat :=
  if c.isDigit then c.toNat - '0'.toNat else c.toNat + 10 - 'a'.toNat

/-- The number that hexadecimal digits stand for. -/
def ofHexDigits (digits : List Char) : Nat :=
  digits.foldl (fun n c => 16 * n + ofHexDigit c) 0

/-- The character that a letter behind a backslash stands for. -/
def unescaped (c : Char) : Char :=
  if c = 'n' then '\n'
  else if c = 'r' then '\r'
  else if c = 't' then '\t'
  else if c = 'b' then '\x08'
  else if c = 'f' then '\x0c'
  else c

/-- Reads a string up to its closing quote. -/
def readString : List Char → Option (List Char × List Char)
  | [] => none
  | '"' :: rest => some ([], rest)
  | '\\' :: 'u' :: a :: b :: c :: d :: rest =>
      (readString rest).map fun (s, rest) => (Char.ofNat (ofHexDigits [a, b, c, d]) :: s, rest)
  | '\\' :: c :: rest => (readString rest).map fun (s, rest) => (unescaped c :: s, rest)
  | c :: rest => (readString rest).map fun (s, rest) => (c :: s, rest)

/-- The value that a word stands for. -/
def ofWord (word : List Char) : Option Json :=
  if word = "null".toList then some null
  else if word = "true".toList then some (boolean true)
  else if word = "false".toList then some (boolean false)
  else if word.all Char.isDigit then some (integer (Nat.ofDigitChars 10 word 0))
  else (Number.ofText word).map number

/-- Reads the key of a member and the colon behind it. -/
def readKey (text : List Char) : Option (String × List Char) :=
  match skipBlanks text with
  | '"' :: rest => do
      let (key, rest) ← readString rest
      match skipBlanks rest with
      | ':' :: rest => some (String.ofList key, rest)
      | _ => none
  | _ => none

mutual

/-- Reads a value. -/
def readValue : Nat → List Char → Option (Json × List Char)
  | 0, _ => none
  | limit + 1, text =>
      match skipBlanks text with
      | '"' :: rest => do
          let (s, rest) ← readString rest
          some (string (String.ofList s), rest)
      | '[' :: rest =>
          match skipBlanks rest with
          | ']' :: rest => some (array [], rest)
          | rest => do
              let (item, rest) ← readValue limit rest
              let (items, rest) ← readItems limit rest
              some (array (item :: items), rest)
      | '\x7b' :: rest =>
          match skipBlanks rest with
          | '\x7d' :: rest => some (object [], rest)
          | rest => do
              let (key, rest) ← readKey rest
              let (value, rest) ← readValue limit rest
              let (members, rest) ← readMembers limit rest
              some (object ((key, value) :: members), rest)
      | text => do
          let value ← ofWord (text.takeWhile isWordPart)
          some (value, text.dropWhile isWordPart)

/-- Reads the further items of an array and its closing bracket. -/
def readItems : Nat → List Char → Option (List Json × List Char)
  | 0, _ => none
  | limit + 1, text =>
      match skipBlanks text with
      | ']' :: rest => some ([], rest)
      | ',' :: rest => do
          let (item, rest) ← readValue limit rest
          let (items, rest) ← readItems limit rest
          some (item :: items, rest)
      | _ => none

/-- Reads the further members of an object and its closing brace. -/
def readMembers : Nat → List Char → Option (List (String × Json) × List Char)
  | 0, _ => none
  | limit + 1, text =>
      match skipBlanks text with
      | '\x7d' :: rest => some ([], rest)
      | ',' :: rest => do
          let (key, rest) ← readKey rest
          let (value, rest) ← readValue limit rest
          let (members, rest) ← readMembers limit rest
          some ((key, value) :: members, rest)
      | _ => none

end

/-- Reads a text that is one value, with blanks or new lines behind it. -/
def ofText (text : String) : Option Json := do
  let (value, rest) ← readValue text.length text.toList
  if skipBlanks rest = [] then some value else none

/-! ## Blanks -/

@[simp]
theorem skipBlanks_blank (text : List Char) : skipBlanks (' ' :: text) = skipBlanks text := rfl

@[simp]
theorem skipBlanks_newline (level : Nat) (text : List Char) :
    skipBlanks (newline level ++ text) = skipBlanks text := by
  have hblanks : ∀ c ∈ newline level, (c = ' ' || c = '\n') = true := by
    intro c hc
    rcases List.mem_cons.mp hc with rfl | hc
    · rfl
    · rw [List.eq_of_mem_replicate hc]
      rfl
  exact List.dropWhile_append_of_pos hblanks

theorem skipBlanks_cons {c : Char} (hc : (c = ' ' || c = '\n') = false) (text : List Char) :
    skipBlanks (c :: text) = c :: text :=
  List.dropWhile_cons_of_neg (by simp [hc])

/-- Reading starts behind the blanks. -/
theorem readValue_congr {text text' : List Char} (h : skipBlanks text = skipBlanks text')
    (limit : Nat) : readValue limit text = readValue limit text' := by
  cases limit with
  | zero => simp only [readValue]
  | succ limit => simp only [readValue, h]

theorem readItems_newline (limit level : Nat) (text : List Char) :
    readItems limit (newline level ++ text) = readItems limit text := by
  cases limit with
  | zero => simp only [readItems]
  | succ limit => simp only [readItems, skipBlanks_newline]

theorem readMembers_newline (limit level : Nat) (text : List Char) :
    readMembers limit (newline level ++ text) = readMembers limit text := by
  cases limit with
  | zero => simp only [readMembers]
  | succ limit => simp only [readMembers, skipBlanks_newline]

theorem readKey_newline (level : Nat) (text : List Char) :
    readKey (newline level ++ text) = readKey text := by
  simp only [readKey, skipBlanks_newline]

/-! ## Strings -/

/-- A control character has an escape of four hexadecimal digits. -/
theorem hexEscape_of_lt {c : Char} (hc : c.toNat < 32) : ∃ x y : Char,
    hexEscape c = ['\\', 'u', '0', '0', x, y] ∧ Char.ofNat (ofHexDigits ['0', '0', x, y]) = c := by
  have hall : ∀ n < 32, hexEscape (Char.ofNat n) =
      ['\\', 'u', '0', '0', Nat.digitChar (n / 16), Nat.digitChar (n % 16)] ∧
      ofHexDigits ['0', '0', Nat.digitChar (n / 16), Nat.digitChar (n % 16)] = n := by
    decide
  obtain ⟨hescape, hvalue⟩ := hall c.toNat hc
  rw [Char.ofNat_toNat] at hescape
  exact ⟨_, _, hescape, by rw [hvalue, Char.ofNat_toNat]⟩

theorem readString_escapeChar (c : Char) (text : List Char) :
    readString (escapeChar c ++ text) = (readString text).map fun (s, rest) => (c :: s, rest) := by
  by_cases hquote : c = '"'
  · subst hquote; rfl
  by_cases hbackslash : c = '\\'
  · subst hbackslash; rfl
  by_cases hn : c = '\n'
  · subst hn; rfl
  by_cases hr : c = '\r'
  · subst hr; rfl
  by_cases ht : c = '\t'
  · subst ht; rfl
  by_cases hb : c = '\x08'
  · subst hb; rfl
  by_cases hf : c = '\x0c'
  · subst hf; rfl
  simp only [escapeChar, if_neg, hquote, hbackslash, hn, hr, ht, hb, hf, not_false_eq_true]
  split
  · rename_i hcontrol
    obtain ⟨x, y, hescape, hvalue⟩ := hexEscape_of_lt hcontrol
    rw [hescape, List.cons_append, List.cons_append, List.cons_append, List.cons_append,
      List.cons_append, List.cons_append, List.nil_append, readString, hvalue]
  · simp [readString, hbackslash]

theorem readString_flatMap (s rest : List Char) :
    readString (s.flatMap escapeChar ++ '"' :: rest) = some (s, rest) := by
  induction s with
  | nil => simp [readString]
  | cons c s ih =>
    rw [List.flatMap_cons, List.append_assoc, readString_escapeChar, ih, Option.map_some]

theorem readKey_quote (key : String) (rest : List Char) :
    readKey (quote key ++ ':' :: rest) = some (key, rest) := by
  have hkey := readString_flatMap key.toList (':' :: rest)
  rw [quote, List.cons_append, List.append_assoc, List.singleton_append, readKey,
    skipBlanks_cons (by decide)]
  simp [hkey, skipBlanks_cons (c := ':') (by decide)]

/-! ## Words -/

/-- A text that does not go on with a word. -/
def Ended (text : List Char) : Prop := ∀ c ∈ text.head?, isWordPart c = false

theorem Ended.nil : Ended [] := by simp [Ended]

theorem Ended.cons {c : Char} (hc : isWordPart c = false) (text : List Char) :
    Ended (c :: text) := by
  simpa [Ended] using hc

theorem Ended.takeWhile {text : List Char} (h : Ended text) : text.takeWhile isWordPart = [] := by
  cases text with
  | nil => rfl
  | cons c text => exact List.takeWhile_cons_of_neg (by simp [h c rfl])

theorem Ended.dropWhile {text : List Char} (h : Ended text) : text.dropWhile isWordPart = text := by
  cases text with
  | nil => rfl
  | cons c text => exact List.dropWhile_cons_of_neg (by simp [h c rfl])

/-- A word that stands for a value. -/
structure Word (j : Json) (word : List Char) : Prop where
  ne_nil : word ≠ []
  parts : ∀ c ∈ word, isWordPart c
  value : ofWord word = some j

theorem ne_of_isWordPart {c d : Char} (hc : isWordPart c) (hd : isWordPart d = false) : c ≠ d := by
  rintro rfl
  exact Bool.noConfusion (hc.symm.trans hd)

theorem not_blank_of_isWordPart {c : Char} (hc : isWordPart c) : (c = ' ' || c = '\n') = false := by
  have hspace : c ≠ ' ' := ne_of_isWordPart hc (by decide)
  have hline : c ≠ '\n' := ne_of_isWordPart hc (by decide)
  simp [hspace, hline]

theorem word_null : Word null "null".toList :=
  ⟨by decide, List.all_eq_true.mp (by decide), rfl⟩

theorem word_true : Word (boolean true) "true".toList :=
  ⟨by decide, List.all_eq_true.mp (by decide), rfl⟩

theorem word_false : Word (boolean false) "false".toList :=
  ⟨by decide, List.all_eq_true.mp (by decide), rfl⟩

theorem word_integer (n : Nat) : Word (integer n) (Nat.toDigits 10 n) := by
  have hdigits : ∀ c ∈ Nat.toDigits 10 n, c.isDigit := fun c hc =>
    Nat.isDigit_of_mem_toDigits (by decide) (by decide) hc
  have hne {word : List Char} (hletter : ¬ word.all Char.isDigit) : Nat.toDigits 10 n ≠ word := by
    rintro rfl
    exact hletter (List.all_eq_true.mpr hdigits)
  refine ⟨Nat.toDigits_ne_nil, fun c hc => ?_, ?_⟩
  · simp [isWordPart, Char.isAlphanum, hdigits c hc]
  · rw [ofWord, if_neg (hne (by decide)), if_neg (hne (by decide)), if_neg (hne (by decide)),
      if_pos (List.all_eq_true.mpr hdigits),
      Nat.ofDigitChars_toDigits (by decide) (by decide)]

theorem word_number (x : Float) : Word (number x) (numberText x) := by
  obtain ⟨⟨c, rest, heq, hfirst⟩, hparts, d, hd, hnotDigit⟩ := Number.numberWord_numberText x
  have hne {word : String} {d : Char} {letters : List Char} (hword : word.toList = d :: letters)
      (hletter : ¬ (d.isDigit ∨ d ∈ ['I', '-', 'N'])) : numberText x ≠ word.toList := by
    rw [heq, hword]
    rintro ⟨⟩
    exact hletter hfirst
  have hnotDigits : ¬ (numberText x).all Char.isDigit := fun hall =>
    hnotDigit (List.all_eq_true.mp hall d hd)
  refine ⟨by rw [heq]; exact List.cons_ne_nil _ _, hparts, ?_⟩
  rw [ofWord, if_neg (hne rfl (by decide)), if_neg (hne rfl (by decide)),
    if_neg (hne rfl (by decide)), if_neg hnotDigits, Number.ofText_numberText, Option.map_some]

theorem readValue_word {j : Json} {word : List Char} (h : Word j word) {limit : Nat}
    (hlimit : word.length ≤ limit) {rest : List Char} (hrest : Ended rest) :
    readValue limit (word ++ rest) = some (j, rest) := by
  obtain ⟨c, letters, rfl⟩ := List.exists_cons_of_ne_nil h.ne_nil
  have hc : isWordPart c := h.parts c (List.mem_cons_self ..)
  obtain ⟨limit, rfl⟩ := Nat.exists_eq_add_of_le' hlimit
  rw [List.length_cons, ← Nat.add_assoc, readValue, List.cons_append,
    skipBlanks_cons (not_blank_of_isWordPart hc)]
  split
  · rename_i heq
    exact absurd (List.cons.inj heq).1 (ne_of_isWordPart hc (by decide))
  · rename_i heq
    exact absurd (List.cons.inj heq).1 (ne_of_isWordPart hc (by decide))
  · rename_i heq
    exact absurd (List.cons.inj heq).1 (ne_of_isWordPart hc (by decide))
  · rw [← List.cons_append, List.takeWhile_append_of_pos h.parts, hrest.takeWhile,
      List.dropWhile_append_of_pos h.parts, hrest.dropWhile, List.append_nil, h.value]
    rfl

/-! ## Values -/

/-- The text of a value starts with a character that is not a blank and closes nothing. -/
theorem render_first (level : Nat) (j : Json) : ∃ c text, render level j = c :: text ∧
    (c = ' ' || c = '\n') = false ∧ c ≠ ']' := by
  have hword {j : Json} {word : List Char} (h : Word j word) : ∃ c text, word = c :: text ∧
      (c = ' ' || c = '\n') = false ∧ c ≠ ']' := by
    obtain ⟨c, letters, rfl⟩ := List.exists_cons_of_ne_nil h.ne_nil
    have hc := h.parts c (List.mem_cons_self ..)
    exact ⟨c, letters, rfl, not_blank_of_isWordPart hc, ne_of_isWordPart hc (by decide)⟩
  cases j with
  | null => exact ⟨'n', _, rfl, by decide, by decide⟩
  | boolean b => cases b with
    | false => exact ⟨'f', _, rfl, by decide, by decide⟩
    | true => exact ⟨'t', _, rfl, by decide, by decide⟩
  | integer n => exact hword (word_integer n)
  | number x => exact hword (word_number x)
  | string s => exact ⟨'"', _, rfl, by decide, by decide⟩
  | array items => cases items with
    | nil => exact ⟨'[', _, rfl, by decide, by decide⟩
    | cons item items => exact ⟨'[', _, rfl, by decide, by decide⟩
  | object members => cases members with
    | nil => exact ⟨'\x7b', _, rfl, by decide, by decide⟩
    | cons member members => exact ⟨'\x7b', _, rfl, by decide, by decide⟩

/-- An array starts with an item unless it is empty. -/
theorem readValue_array {limit : Nat} {text : List Char} {c : Char} {rest : List Char}
    (htext : skipBlanks text = c :: rest) (hc : c ≠ ']') :
    readValue (limit + 1) ('[' :: text) = (do
      let (item, rest) ← readValue limit (c :: rest)
      let (items, rest) ← readItems limit rest
      some (array (item :: items), rest)) := by
  rw [readValue, skipBlanks_cons (by decide)]
  simp only [htext]
  split
  · rename_i heq
    exact absurd (List.cons.inj heq).1 hc
  · rfl

/-- An object starts with a member unless it is empty. -/
theorem readValue_object {limit : Nat} {text rest : List Char}
    (htext : skipBlanks text = '"' :: rest) :
    readValue (limit + 1) ('\x7b' :: text) = (do
      let (key, rest) ← readKey ('"' :: rest)
      let (value, rest) ← readValue limit rest
      let (members, rest) ← readMembers limit rest
      some (object ((key, value) :: members), rest)) := by
  rw [readValue, skipBlanks_cons (by decide)]
  simp only [htext]
  rfl

theorem ended_renderItems (level outer : Nat) (items : List Json) (rest : List Char) :
    Ended (renderItems level items ++ (newline outer ++ rest)) := by
  cases items with
  | nil => exact .cons (by decide) _
  | cons item items => exact .cons (by decide) _

theorem ended_renderMembers (level outer : Nat) (members : List (String × Json))
    (rest : List Char) : Ended (renderMembers level members ++ (newline outer ++ rest)) := by
  cases members with
  | nil => exact .cons (by decide) _
  | cons member members => exact .cons (by decide) _

mutual

/-- A value is read back from its text. -/
theorem readValue_render : ∀ (j : Json) (level limit : Nat) {rest : List Char},
    (render level j).length ≤ limit → Ended rest →
    readValue limit (render level j ++ rest) = some (j, rest)
  | null, _, _, _, hlimit, hrest => readValue_word word_null hlimit hrest
  | boolean true, _, _, _, hlimit, hrest => readValue_word word_true hlimit hrest
  | boolean false, _, _, _, hlimit, hrest => readValue_word word_false hlimit hrest
  | integer n, _, _, _, hlimit, hrest => readValue_word (word_integer n) hlimit hrest
  | number x, _, _, _, hlimit, hrest => readValue_word (word_number x) hlimit hrest
  | string s, _, 0, _, hlimit, _ => absurd hlimit (Nat.not_succ_le_zero _)
  | string s, level, limit + 1, rest, hlimit, hrest => by
    have hstring := readString_flatMap s.toList rest
    rw [render, quote, List.cons_append, List.append_assoc, List.singleton_append, readValue,
      skipBlanks_cons (by decide)]
    simp [hstring]
  | array [], _, 0, _, hlimit, _ => absurd hlimit (Nat.not_succ_le_zero _)
  | array [], _, _ + 1, _, _, _ => rfl
  | array (item :: items), _, 0, _, hlimit, _ => absurd hlimit (Nat.not_succ_le_zero _)
  | array (item :: items), level, limit + 1, rest, hlimit, hrest => by
    simp only [render, newline, List.length_cons, List.length_append] at hlimit
    have hitem := readValue_render item (level + 1) limit (by omega)
      (ended_renderItems (level + 1) level items (']' :: rest))
    have hitems := readItems_render items (level + 1) level limit rest (by omega)
    obtain ⟨c, text, hfirst, hblank, hclosing⟩ := render_first (level + 1) item
    rw [hfirst, List.cons_append] at hitem
    simp only [render, List.cons_append, List.append_assoc, List.nil_append]
    rw [readValue_array (by rw [skipBlanks_newline, hfirst, List.cons_append,
      skipBlanks_cons hblank]) hclosing]
    simp [hitem, hitems]
  | object [], _, 0, _, hlimit, _ => absurd hlimit (Nat.not_succ_le_zero _)
  | object [], _, _ + 1, _, _, _ => rfl
  | object ((key, value) :: members), _, 0, _, hlimit, _ =>
    absurd hlimit (Nat.not_succ_le_zero _)
  | object ((key, value) :: members), level, limit + 1, rest, hlimit, hrest => by
    simp only [render, newline, List.length_cons, List.length_append] at hlimit
    have hvalue := readValue_render value (level + 1) limit (by omega)
      (ended_renderMembers (level + 1) level members ('\x7d' :: rest))
    have hmembers := readMembers_render members (level + 1) level limit rest (by omega)
    have hkey := readKey_quote key (' ' :: (render (level + 1) value ++
      (renderMembers (level + 1) members ++ (newline level ++ '\x7d' :: rest))))
    rw [quote, List.cons_append] at hkey
    simp only [render, quote, List.cons_append, List.append_assoc, List.nil_append]
    rw [readValue_object (by rw [skipBlanks_newline, skipBlanks_cons (by decide)])]
    simp only [List.append_assoc, List.singleton_append] at hkey
    simp only [hkey, readValue_congr (skipBlanks_blank _), hvalue, hmembers, Option.bind_eq_bind,
      Option.bind_some]

/-- The further items of an array are read back from their text. -/
theorem readItems_render : ∀ (items : List Json) (level outer limit : Nat) (rest : List Char),
    (renderItems level items).length < limit →
    readItems limit (renderItems level items ++ (newline outer ++ ']' :: rest)) = some (items, rest)
  | _, _, _, 0, _, hlimit => absurd hlimit (Nat.not_lt_zero _)
  | [], _, _, _ + 1, _, _ => by
    rw [renderItems, List.nil_append, readItems_newline]
    rfl
  | item :: items, level, outer, limit + 1, rest, hlimit => by
    simp only [renderItems, List.length_cons, List.length_append] at hlimit
    have hitem := readValue_render item level limit (by omega)
      (ended_renderItems level outer items (']' :: rest))
    have hitems := readItems_render items level outer limit rest (by omega)
    simp only [renderItems, List.cons_append, List.append_assoc]
    rw [readItems, skipBlanks_cons (by decide)]
    simp only [readValue_congr (skipBlanks_newline level _), hitem, hitems, Option.bind_eq_bind,
      Option.bind_some]

/-- The further members of an object are read back from their text. -/
theorem readMembers_render : ∀ (members : List (String × Json)) (level outer limit : Nat)
    (rest : List Char), (renderMembers level members).length < limit →
    readMembers limit (renderMembers level members ++ (newline outer ++ '\x7d' :: rest)) =
      some (members, rest)
  | _, _, _, 0, _, hlimit => absurd hlimit (Nat.not_lt_zero _)
  | [], _, _, _ + 1, _, _ => by
    rw [renderMembers, List.nil_append, readMembers_newline]
    rfl
  | (key, value) :: members, level, outer, limit + 1, rest, hlimit => by
    simp only [renderMembers, List.length_cons, List.length_append] at hlimit
    have hvalue := readValue_render value level limit (by omega)
      (ended_renderMembers level outer members ('\x7d' :: rest))
    have hmembers := readMembers_render members level outer limit rest (by omega)
    have hkey := readKey_quote key (' ' :: (render level value ++
      (renderMembers level members ++ (newline outer ++ '\x7d' :: rest))))
    simp only [renderMembers, List.cons_append, List.append_assoc]
    rw [readMembers, skipBlanks_cons (by decide)]
    simp only [readKey_newline, hkey, readValue_congr (skipBlanks_blank _), hvalue, hmembers,
      Option.bind_eq_bind, Option.bind_some]

end

/-- Every value is read back from its text, with a new line behind it or without. -/
theorem ofText_text (j : Json) : ofText j.text = some j ∧ ofText (j.text ++ "\n") = some j := by
  have hread (behind : List Char) (hended : Ended behind) (hblank : skipBlanks behind = []) :
      ofText (String.ofList (render 0 j ++ behind)) = some j := by
    have hvalue := readValue_render j 0 (render 0 j ++ behind).length
      (by simp) hended
    rw [List.length_append] at hvalue
    simp [ofText, hvalue, hblank]
  constructor
  · simpa [text] using hread [] .nil rfl
  · have hline := hread ['\n'] (.cons (by decide) _) rfl
    rwa [String.ofList_append] at hline

end ClassScript.Json
