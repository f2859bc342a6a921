import ClassScript.Diagnostic
import ClassScript.Failure

/-!
# Events

What a session does that can be seen from outside is a list of events: values
that are printed, mistakes and failures that are reported, and notes about its
progress.  Printed values go to the output, reports to the error output and
notes to the log.  Without an open log the notes go to the output too.
-/

namespace ClassScript

/-- Something that can be seen from outside. -/
inductive Event where
  /-- A printed line. -/
  | printed (line : String)
  /-- A mistake found before the program runs. -/
  | diagnosed (diagnostic : Diagnostic)
  /-- A failure of the running program. -/
  | failed (failure : Failure)
  /-- A note about the progress. -/
  | noted (line : String)
deriving DecidableEq, Repr

namespace Event

/-- What an event writes to the output. -/
def outputText (logOpen : Bool) : Event → String
  | printed line => line ++ "\n"
  | noted line => if logOpen then "" else line ++ "\n"
  | diagnosed _ | failed _ => ""

/-- What an event writes to the error output. -/
def errorText : Event → String
  | diagnosed d => d.text ++ "\n"
  | failed f => f.text ++ "\n"
  | printed _ | noted _ => ""

/-- What an event writes to the log. -/
def logText (logOpen : Bool) : Event → String
  | noted line => if logOpen then line ++ "\n" else ""
  | printed _ | diagnosed _ | failed _ => ""

/-- What events write to the output. -/
def output (logOpen : Bool) (events : List Event) : String :=
  String.join (events.map (outputText logOpen))

/-- What events write to the error output. -/
def errorOutput (events : List Event) : String :=
  String.join (events.map errorText)

/-- What events write to the log. -/
def log (logOpen : Bool) (events : List Event) : String :=
  String.join (events.map (logText logOpen))

end Event

end ClassScript
