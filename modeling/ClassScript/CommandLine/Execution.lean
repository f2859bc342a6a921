import ClassScript.CommandLine.Options
import ClassScript.Session
import ClassScript.Syntax.Dump
import ClassScript.Text.Lines
import ClassScript.Text.Path

/-!
# Execution of the command line

The command line prints the syntax tree of a file, runs a script, or opens a
prompt, in this order of preference.

The exit status is 0 if all went well.  It is 66 if there is no file of the
given name, 65 if the program has mistakes, and 70 if it fails.  A prompt takes
a line at a time.  Neither a mistake nor a failure ends it, and its exit status
is 0.

A log is made whenever a program runs with a verbosity above zero.
-/

namespace ClassScript.CommandLine

/-! ## What the command line sees and does -/

/-- What a path leads to. -/
inductive Entry where
  /-- A file with the given text. -/
  | file (text : String)
  /-- Something that is there but cannot be read as a text, such as a directory. -/
  | unreadable
deriving DecidableEq, Repr

/-- What the command line can see. -/
structure World where
  /-- What a path in its simple form leads to. -/
  entry? : String → Option Entry
  /-- The input. -/
  input : String
  /-- The time of each reading of the clock. -/
  clock : Nat → Float

/-- How an execution ends. -/
inductive Ending where
  /-- With an exit status. -/
  | exit (status : Nat)
  /-- With a program that was abandoned without a report. -/
  | aborted (abort : Abort)
  /-- With something that is there but cannot be read as a text. -/
  | unreadable
deriving DecidableEq, Repr

/-- What an execution does. -/
structure Report where
  /-- What is written to the output. -/
  output : String
  /-- What is written to the error output. -/
  errors : String
  /-- What is written to the log, if one is made. -/
  log : Option String
  /-- How it ends. -/
  ending : Ending
deriving DecidableEq, Repr

/-- The exit status for a program with mistakes. -/
def mistakeStatus : Nat := 65

/-- The exit status for a file that is not there. -/
def missingStatus : Nat := 66

/-- The exit status for a program that fails. -/
def failureStatus : Nat := 70

/-- The message about a file that is not there. -/
def missingMessage (path : String) : String := "Error: file " ++ path ++ " not found\n"

/-- A report without output or log. -/
def Report.plain (errors : String) (ending : Ending) : Report := ⟨"", errors, none, ending⟩

/-- Does something with the text of a file. -/
def withFile (world : World) (path : String) (action : String → Report) : Report :=
  match world.entry? (Text.simplifyPath path) with
  | none => .plain (missingMessage (Text.simplifyPath path)) (.exit missingStatus)
  | some .unreadable => .plain "" .unreadable
  | some (.file text) => action (Text.normalizeNewlines text)

/-! ## Syntax trees -/

/-- Prints the syntax tree of a program text. -/
def dumpReport (source : String) : Report :=
  let reading := Reading.ofSource source
  if reading.diagnostics.isEmpty then
    ⟨(Program.dump reading.program).text ++ "\n", "", none, .exit 0⟩
  else
    .plain (Event.errorOutput (reading.diagnostics.map .diagnosed)) (.exit mistakeStatus)

/-! ## Scripts -/

/-- The log of events, if there is one. -/
def logOf (verbosity : Nat) (events : List Event) : Option String :=
  if verbosity = 0 then none else some (Event.log true events)

/-- How a script ends. -/
def Ending.ofStep (step : Step) : Ending :=
  match step.abort with
  | some abort => .aborted abort
  | none =>
    if step.session.hadError then .exit mistakeStatus
    else if step.session.hadFailure then .exit failureStatus
    else .exit 0

/-- Runs a program text. -/
def scriptReport (world : World) (verbosity : Nat) (source : String) : Report :=
  let step := Session.start.submit (.standard verbosity world.clock) ampleFuel source
  { output := Event.output true step.events
    errors := Event.errorOutput step.events
    log := logOf verbosity step.events
    ending := .ofStep step }

/-! ## The prompt -/

/-- What stands before each line of the prompt. -/
def promptText : String := "> "

/-- Takes a line at the prompt.  A mistake in it is forgiven afterwards. -/
def promptStep (settings : Settings) (session : Session) (line : String) : Step :=
  let step := session.submit settings ampleFuel line
  { step with session := step.session.forgive }

/-- What the prompt writes to the output, all that happens at it, and how it
ends, for the given lines. -/
def promptLines (settings : Settings) : Session → List String → String × List Event × Ending
  | _, [] => (promptText ++ "\n", [], .exit 0)
  | session, line :: rest =>
    let step := promptStep settings session line
    let output := promptText ++ Event.output true step.events
    match step.abort with
    | some abort => (output, step.events, .aborted abort)
    | none =>
      let (later, events, ending) := promptLines settings step.session rest
      (output ++ later, step.events ++ events, ending)

/-- Runs the prompt on all of the input. -/
def promptReport (world : World) (verbosity : Nat) : Report :=
  let lines := Text.lines (Text.normalizeNewlines world.input)
  let (output, events, ending) :=
    promptLines (.standard verbosity world.clock) Session.start lines
  { output, errors := Event.errorOutput events, log := logOf verbosity events, ending }

/-! ## The command line -/

/-- What the options ask for.  An empty name counts as none. -/
inductive Action where
  /-- Print the syntax tree of a file. -/
  | dump (path : String)
  /-- Run a script. -/
  | script (path : String)
  /-- Open a prompt. -/
  | prompt
deriving DecidableEq, Repr

/-- A name that is not empty. -/
def nonempty (name : Option String) : Option String := name.filter (· ≠ "")

/-- The action that options ask for. -/
def Options.action (options : Options) : Action :=
  match nonempty options.dump, nonempty options.script with
  | some path, _ => .dump path
  | none, some path => .script path
  | none, none => .prompt

/-- Does what the options ask for. -/
def execute (world : World) (options : Options) : Report :=
  match options.action with
  | .dump path => withFile world path dumpReport
  | .script path => withFile world path (scriptReport world options.verbosity)
  | .prompt => promptReport world options.verbosity

/-- Reads the command line and does what it asks for. -/
def run (world : World) (arguments : List String) : Except Refusal Report :=
  match Options.ofArguments arguments with
  | .error refusal => .error refusal
  | .ok options => .ok (execute world options)

end ClassScript.CommandLine
