import ClassScript.Evaluation
import ClassScript.Scope.Resolution
import ClassScript.Syntax.Reading

/-!
# Sessions

A session takes one program text after another.  Its globals live on from one
to the next, and so does everything they reach.

A text is read, then its names are resolved, then it runs.  All
mistakes of a stage are reported, and a stage with mistakes is the last one.
Mistakes leave a mark on the session: until the mark is cleared
(`Session.forgive`) every later text is read, and its mistakes are reported,
but it does not run.  A failure leaves a mark of its own, which stays.

The log of a session is open until it is closed (`Session.closeLog`).
-/

namespace ClassScript

/-- What a session keeps between program texts. -/
structure Session where
  /-- The variables and fields. -/
  heap : Heap
  /-- The number of readings of the clock. -/
  readings : Nat
  /-- The references that were ever bound to a local scope, in order. -/
  references : Array LocalReference
  /-- Whether mistakes were found. -/
  hadError : Bool
  /-- Whether a program failed. -/
  hadFailure : Bool
  /-- Whether notes still go to the log. -/
  logOpen : Bool

/-- What a session does with a program text. -/
structure Step where
  /-- The session afterwards. -/
  session : Session
  /-- What was seen from outside, in order. -/
  events : List Event
  /-- Why the program was abandoned without a report, if it was. -/
  abort : Option Abort

/-- The settings under which programs usually run. -/
def Settings.standard (verbosity : Nat) (clock : Nat → Float) : Settings where
  verbosity := verbosity
  callLimit := 1500
  clock := clock
  lookup := .bound

/-- More fuel than a program can use up in practice. -/
def ampleFuel : Nat := Nat.pow 2 62

/-- The heap with the native functions among the globals. -/
def Heap.initial : Heap :=
  (Heap.empty.pushEnv none (Slots.single Native.clock.name (.native 0 .clock))).takeId

namespace Session

/-- A session at its start. -/
def start : Session where
  heap := .initial
  readings := 0
  references := #[]
  hadError := false
  hadFailure := false
  logOpen := true

/-- The session with the mark of mistakes cleared. -/
def forgive (s : Session) : Session := { s with hadError := false }

/-- The session with its log closed. -/
def closeLog (s : Session) : Session := { s with logOpen := false }

/-- The globals, in the order in which they were first defined. -/
def globals (s : Session) : List (String × Value) := (s.heap.slots .globals).entries

/-- A note, if anything is noted at the given level. -/
def note (settings : Settings) (level : Nat) (line : String) : List Event :=
  if level ≤ settings.verbosity then [.noted line] else []

/-- Runs a resolved program. -/
def run (settings : Settings) (fuel : Nat) (s : Session) (program : Program Binding) : Step :=
  match Run.program settings fuel program ⟨s.heap, s.readings, #[]⟩ with
  | .ok _ m => ⟨{ s with heap := m.heap, readings := m.readings }, m.events.toList, none⟩
  | .error abort m =>
    let s := { s with heap := m.heap, readings := m.readings }
    match abort with
    | .failure f =>
      ⟨{ s with hadFailure := true },
        m.events.toList ++ note settings 1 ("runtime error: " ++ f.summary) ++ [.failed f], none⟩
    | _ => ⟨s, m.events.toList, some abort⟩

/-- The step with events before its own. -/
def precede (events : List Event) (step : Step) : Step :=
  { step with events := events ++ step.events }

/-- Resolves a program and runs it. -/
def resolveAndRun (settings : Settings) (fuel : Nat) (s : Session) (program : Program Unit) :
    Step :=
  let resolution := Resolution.ofProgram program
  let s := { s with references := s.references ++ resolution.references }
  if resolution.diagnostics.isEmpty then
    precede
      (note settings 1 ("resolved " ++ toString s.references.size ++ " local references"))
      (run settings fuel s resolution.program)
  else ⟨{ s with hadError := true }, resolution.diagnostics.map .diagnosed, none⟩

/-- Takes a program text. -/
def submit (settings : Settings) (fuel : Nat) (s : Session) (source : String) : Step :=
  let reading := Reading.ofSource source
  let s := { s with hadError := s.hadError || !reading.diagnostics.isEmpty }
  let reports := reading.diagnostics.map Event.diagnosed
  if s.hadError then ⟨s, reports, none⟩
  else
    precede
      (reports
        ++ note settings 1 ("parsed " ++ toString reading.program.length ++ " statements"))
      (resolveAndRun settings fuel s reading.program)

end Session

end ClassScript
