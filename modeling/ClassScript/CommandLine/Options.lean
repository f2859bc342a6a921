import ClassScript.Text.DecimalDigit

/-!
# Options of the command line

The command line takes three options and one operand.

* `-h` or `--help` shows how the program is used.
* `-v` raises the verbosity by one; it may be repeated, also as `-vv`.
* `--emit-ast` takes the name of a file whose syntax tree is printed.
* The operand is the name of a script.

A long option may be shortened as long as no other one starts in the same way,
and its value may follow an equals sign.  Short options may share a dash.  A
word that starts with a dash is an operand if it is a dash alone, looks like a
negative number, or holds a blank.  After the word `--` every word is an
operand.

Words are read in three steps: each word is classified (`Word.ofText`), which
may already find an ambiguous option; then the options and operands are taken in
order; at the end no word may be left over.  A request for help ends the reading
where it stands.
-/

namespace ClassScript.CommandLine

/-! ## Options -/

/-- What the command line asks for. -/
structure Options where
  /-- How much is noted about the progress. -/
  verbosity : Nat
  /-- The file whose syntax tree is printed. -/
  dump : Option String
  /-- The script to run. -/
  script : Option String
deriving DecidableEq, Repr

/-- Why there is nothing to do. -/
inductive Refusal where
  /-- The user asked how the program is used. -/
  | help
  /-- The program was used wrongly. -/
  | misuse
deriving DecidableEq, Repr

/-- The exit status that goes with a refusal. -/
def Refusal.exitCode : Refusal → Nat
  | help => 0
  | misuse => 2

/-- The options. -/
inductive Flag where
  | help
  | verbose
  | emitAst
deriving DecidableEq, Repr

/-- The option of a letter behind a single dash. -/
def Flag.ofLetter? : Char → Option Flag
  | 'h' => some help
  | 'v' => some verbose
  | _ => none

/-- The long options. -/
def Flag.long : List (List Char × Flag) :=
  [("--help".toList, help), ("--emit-ast".toList, emitAst)]

/-! ## Words -/

/-- What a word says behind the name of its option. -/
inductive Attachment where
  /-- Nothing. -/
  | nothing
  /-- A value behind an equals sign. -/
  | value (text : List Char)
  /-- More letters behind a single dash. -/
  | letters (text : List Char)
deriving DecidableEq, Repr

/-- A word of the command line. -/
inductive Word where
  /-- A word that is no option. -/
  | operand (text : String)
  /-- An option with a single dash. -/
  | short (flag : Flag) (attachment : Attachment)
  /-- An option with two dashes, and the value behind its equals sign. -/
  | long (flag : Flag) (value : Option (List Char))
  /-- An option that does not exist. -/
  | unknown
deriving DecidableEq, Repr

/-- A text without the newline at its end. -/
def dropFinalNewline (text : List Char) : List Char :=
  if text.getLast? = some '\n' then text.dropLast else text

/-- Whether the text behind a dash is a decimal number.  A newline may end it. -/
def looksNegative (text : List Char) : Bool :=
  let text := dropFinalNewline text
  let whole := text.takeWhile Text.isDecimalDigit
  match text.dropWhile Text.isDecimalDigit with
  | [] => !whole.isEmpty
  | '.' :: fraction => !fraction.isEmpty && fraction.all Text.isDecimalDigit
  | _ => false

/-- A word that starts with a dash and names no option. -/
def Word.ofOther (text : List Char) : Word :=
  if looksNegative (text.drop 1) || text.contains ' ' then .operand (String.ofList text)
  else .unknown

/-- The name before the first equals sign, and the value after it. -/
def splitValue (text : List Char) : List Char × Option (List Char) :=
  match text.dropWhile (· ≠ '=') with
  | [] => (text, none)
  | _ :: value => (text.takeWhile (· ≠ '='), some value)

/-- The word with the given text behind two dashes.  The name may be a
shortened one. -/
def Word.ofLong (text : List Char) : Except Refusal Word :=
  let (name, value) := splitValue text
  match Flag.long.filter fun option => name.isPrefixOf option.1 with
  | [] => .ok (.ofOther text)
  | [option] => .ok (.long option.2 value)
  | _ => .error .misuse

/-- The word with the given letters behind one dash. -/
def Word.ofShort (letter : Char) (rest : List Char) : Word :=
  match Flag.ofLetter? letter with
  | none => .ofOther ('-' :: letter :: rest)
  | some flag =>
    match rest with
    | [] => .short flag .nothing
    | '=' :: value => .short flag (.value value)
    | letters => .short flag (.letters letters)

/-- The word with the given text. -/
def Word.ofText (text : String) : Except Refusal Word :=
  match text.toList with
  | '-' :: '-' :: rest => Word.ofLong ('-' :: '-' :: rest)
  | '-' :: letter :: rest => .ok (.ofShort letter rest)
  | _ => .ok (.operand text)

/-! ## Reading the words -/

/-- What is known of the script. -/
inductive Script where
  /-- No operand was taken yet. -/
  | open
  /-- The last word was taken as the script. -/
  | latest (name : String)
  /-- An earlier word was taken as the script. -/
  | earlier (name : String)
deriving DecidableEq, Repr

/-- The name of the script. -/
def Script.name? : Script → Option String
  | .open => none
  | latest name => some name
  | earlier name => some name

/-- What is known after some of the words. -/
structure Progress where
  /-- The verbosity so far. -/
  verbosity : Nat
  /-- The file whose syntax tree is printed. -/
  dump : Option String
  /-- The script. -/
  script : Script
  /-- Whether a word was left over. -/
  leftOver : Bool
deriving DecidableEq, Repr

namespace Progress

/-- Nothing is known. -/
def start : Progress := ⟨0, none, .open, false⟩

/-- An option is taken, so the script is no longer the last word. -/
def passOption (p : Progress) : Progress :=
  match p.script with
  | .latest name => { p with script := .earlier name }
  | _ => p

/-- Takes an operand as the script, unless there is one already. -/
def takeOperand (p : Progress) (text : String) : Progress :=
  match p.script with
  | .open => { p with script := .latest text }
  | _ => { p with leftOver := true }

/-- Takes an option without a value. -/
def takeFlag (p : Progress) : Flag → Except Refusal Progress
  | .help => .error .help
  | .verbose => .ok { p with verbosity := p.verbosity + 1 }
  | .emitAst => .error .misuse

/-- Takes options without values, in order. -/
def takeFlags : Progress → List Flag → Except Refusal Progress
  | p, [] => .ok p
  | p, flag :: rest =>
    match p.takeFlag flag with
    | .error refusal => .error refusal
    | .ok p => takeFlags p rest

end Progress

/-- The options of letters behind a dash, up to a letter that is none.  Tells
whether there is such a letter.  A dash or an equals sign among the letters is a
misuse. -/
def flagsOfLetters : List Char → Except Refusal (List Flag × Bool)
  | [] => .ok ([], false)
  | c :: rest =>
    if c = '-' ∨ c = '=' then .error .misuse
    else
      match Flag.ofLetter? c with
      | none => .ok ([], true)
      | some flag =>
        match flagsOfLetters rest with
        | .error refusal => .error refusal
        | .ok (flags, unknown) => .ok (flag :: flags, unknown)

/-- Takes an option with a single dash. -/
def takeShort (p : Progress) (flag : Flag) : Attachment → Except Refusal Progress
  | .nothing => p.takeFlag flag
  | .value _ => .error .misuse
  | .letters letters =>
    match flagsOfLetters letters with
    | .error refusal => .error refusal
    | .ok (flags, unknown) =>
      match p.takeFlags (flag :: flags) with
      | .error refusal => .error refusal
      | .ok p => .ok { p with leftOver := p.leftOver || unknown }

/-- Takes words in order. -/
def takeWords : Progress → List Word → Except Refusal Progress
  | p, [] => .ok p
  | p, .operand text :: rest => takeWords (p.takeOperand text) rest
  | p, .unknown :: rest => takeWords { p.passOption with leftOver := true } rest
  | p, .short flag attachment :: rest =>
    match takeShort p.passOption flag attachment with
    | .error refusal => .error refusal
    | .ok p => takeWords p rest
  | p, .long .emitAst (some value) :: rest =>
      takeWords { p.passOption with dump := some (String.ofList value) } rest
  | p, .long .emitAst none :: .operand text :: rest =>
      takeWords { p.passOption with dump := some text } rest
  | _, .long .emitAst none :: _ => .error .misuse
  | _, .long _ (some _) :: _ => .error .misuse
  | p, .long flag none :: rest =>
    match p.passOption.takeFlag flag with
    | .error refusal => .error refusal
    | .ok p => takeWords p rest

/-- Takes the word `--` and the operands behind it.  The word itself is left
over if it is not next to an operand that is the script. -/
def takeRest (p : Progress) : List String → Progress
  | [] =>
    match p.script with
    | .earlier _ => { p with leftOver := true }
    | _ => p
  | first :: rest =>
    match p.script with
    | .open => { p with script := .latest first, leftOver := p.leftOver || !rest.isEmpty }
    | _ => { p with leftOver := true }

/-- The words before the word `--`, and those after it if it is there. -/
def splitRest : List String → List String × Option (List String)
  | [] => ([], none)
  | text :: rest =>
    if text = "--" then ([], some rest)
    else
      let (words, operands) := splitRest rest
      (text :: words, operands)

/-- Classifies words. -/
def wordsOfTexts : List String → Except Refusal (List Word)
  | [] => .ok []
  | text :: rest =>
    match Word.ofText text with
    | .error refusal => .error refusal
    | .ok word =>
      match wordsOfTexts rest with
      | .error refusal => .error refusal
      | .ok words => .ok (word :: words)

/-- What the command line asks for. -/
def Options.ofArguments (arguments : List String) : Except Refusal Options :=
  let (texts, operands) := splitRest arguments
  match wordsOfTexts texts with
  | .error refusal => .error refusal
  | .ok words =>
    match takeWords .start words with
    | .error refusal => .error refusal
    | .ok p =>
      let p := match operands with
        | none => p
        | some rest => takeRest p rest
      if p.leftOver then .error .misuse else .ok ⟨p.verbosity, p.dump, p.script.name?⟩

end ClassScript.CommandLine
