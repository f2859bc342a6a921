import ClassScript.CommandLine.Execution
import Std.Time.DateTime.Timestamp

/-!
# The program

The program reads its command line, looks at the one file it needs and does what
is asked for.  A prompt answers each line before it waits for the next one.  The
log is the file `debug.txt` in the current directory.

The clock is read when the program starts.  Each reading by a script then comes
one microsecond after the one before it.
-/

namespace ClassScript.Program

open CommandLine

/-- How the program is used. -/
def usage : String :=
  String.join
    ["usage: [-h] [-v] [--emit-ast FILE] [SCRIPT]\n",
      "\n",
      "Runs SCRIPT, or opens a prompt if there is none.\n",
      "\n",
      "  -h, --help        show this text\n",
      "  -v                write more to debug.txt, may be repeated\n",
      "  --emit-ast FILE   print the syntax tree of FILE\n"]

/-- The name of the log. -/
def logName : String := "debug.txt"

/-- The exit status of a program that is abandoned. -/
def abortStatus : UInt32 := 1

/-- Writes to the output at once. -/
def say (text : String) : IO Unit := do
  let output ← IO.getStdout
  output.putStr text
  output.flush

/-- Writes to the error output. -/
def complain (text : String) : IO Unit := IO.eprint text

/-- The clock that starts now. -/
def startClock : IO (Nat → Float) := do
  let now ← Std.Time.Timestamp.now
  let start := Float.ofInt now.toNanosecondsSinceUnixEpoch.toInt
  return fun readings => (start + 1000 * readings.toFloat) / 1000000000

/-- Looks at what a path leads to. -/
def look (path : String) : IO (Option Entry) := do
  try
    return some (.file (← IO.FS.readFile path))
  catch
    | .noFileOrDirectory .. => return none
    | _ => return some .unreadable

/-- Says how a program ended, and gives the exit status. -/
def finish : Ending → IO UInt32
  | .exit status => return status.toUInt32
  | .aborted _ => do
    complain "a variable is read before it is set\n"
    return abortStatus
  | .unreadable => do
    complain "the file cannot be read\n"
    return abortStatus

/-- Does what the options ask for with the file at a path. -/
def runFile (options : Options) (path : String) : IO UInt32 := do
  let entry ← look (Text.simplifyPath path)
  let clock ← startClock
  let report := execute ⟨fun _ => entry, "", clock⟩ options
  say report.output
  complain report.errors
  if let some text := report.log then
    IO.FS.writeFile logName text
  finish report.ending

/-- The next line: one that is left from the last reading, or the first of a new
one.  The other lines are left for later. -/
def nextLine : List String → IO (Option (String × List String))
  | line :: rest => return some (line, rest)
  | [] => do
    let text ← (← IO.getStdin).getLine
    match Text.lines (Text.normalizeNewlines text) with
    | [] => return none
    | line :: rest => return some (line, rest)

/-- Answers lines until there are no more. -/
partial def prompt (settings : Settings) (log : String → IO Unit) (session : Session)
    (left : List String) : IO UInt32 := do
  say promptText
  match ← nextLine left with
  | none =>
    say "\n"
    finish (.exit 0)
  | some (line, left) =>
    let step := promptStep settings session line
    say (Event.output true step.events)
    complain (Event.errorOutput step.events)
    log (Event.log true step.events)
    match step.abort with
    | some abort => finish (.aborted abort)
    | none => prompt settings log step.session left

/-- Opens a prompt. -/
def runPrompt (verbosity : Nat) : IO UInt32 := do
  let settings := Settings.standard verbosity (← startClock)
  if verbosity = 0 then
    prompt settings (fun _ => return ()) .start []
  else
    let file ← IO.FS.Handle.mk logName .write
    prompt settings file.putStr .start []

/-- Does what the options ask for. -/
def run (options : Options) : IO UInt32 :=
  match options.action with
  | .dump path | .script path => runFile options path
  | .prompt => runPrompt options.verbosity

end ClassScript.Program

open ClassScript in
/-- Reads the command line and does what it asks for. -/
def main (arguments : List String) : IO UInt32 := do
  match CommandLine.Options.ofArguments arguments with
  | .error .help =>
    Program.say Program.usage
    return 0
  | .error .misuse =>
    Program.complain Program.usage
    return CommandLine.Refusal.misuse.exitCode.toUInt32
  | .ok options => Program.run options
