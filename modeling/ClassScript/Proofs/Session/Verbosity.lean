import ClassScript.Proofs.Evaluation.Verbosity
import ClassScript.Session
import Mathlib.Data.List.Forall2

/-!
# Sessions at two verbosities

The verbosity of a session decides what is written to its log, and nothing else.  While the
log is open, a session that is asked the same at two verbosities does the same step by
step, and the notes at the lower verbosity are some of those at the higher one, in the same
order (`Session.answers_quieter`).
-/

namespace ClassScript

open Run

/-! ## Requests -/

/-- What a session can be asked to do while its log stays open. -/
inductive Request where
  /-- To take a program text, with fuel for its program. -/
  | submit (fuel : Nat) (source : String)
  /-- To clear the mark of mistakes. -/
  | forgive

namespace Session

/-- What a session does when it is asked. -/
def answer (settings : Settings) (s : Session) : Request → Step
  | .submit fuel source => s.submit settings fuel source
  | .forgive => ⟨s.forgive, [], none⟩

/-- What a session does when it is asked one thing after another. -/
def answers (settings : Settings) : Session → List Request → List Step
  | _, [] => []
  | s, request :: rest =>
    let step := s.answer settings request
    step :: answers settings step.session rest

end Session

namespace Step

/-- What a step writes to the output. -/
def output (step : Step) : String := Event.output step.session.logOpen step.events

/-- What a step writes to the error output. -/
def errorOutput (step : Step) : String := Event.errorOutput step.events

/-- The notes of a step, in order. -/
def notes (step : Step) : List String := step.events.filterMap Event.note?

/-- The first step is the second one with some of its notes. -/
structure FewerNotes (step step' : Step) : Prop where
  /-- They leave the same session: the same globals, objects and marks. -/
  session : step.session = step'.session
  /-- They are abandoned for the same reason, if they are. -/
  abort : step.abort = step'.abort
  output : step.output = step'.output
  errorOutput : step.errorOutput = step'.errorOutput
  notes : step.notes.Sublist step'.notes

/-- The first step is the second one with some notes left out. -/
structure Quieter (step step' : Step) : Prop where
  session : step.session = step'.session
  abort : step.abort = step'.abort
  events : Event.Quieter step.events step'.events

namespace Quieter

variable {step step' : Step}

theorem precede {events events' : List Event} (hevents : Event.Quieter events events')
    (h : Quieter step step') :
    Quieter (Session.precede events step) (Session.precede events' step') :=
  ⟨h.session, h.abort, hevents.append h.events⟩

theorem fewerNotes (h : Quieter step step') (hopen : step.session.logOpen = true) :
    FewerNotes step step' where
  session := h.session
  abort := h.abort
  output := by
    unfold Step.output
    rw [← h.session, hopen]
    exact h.events.output
  errorOutput := h.events.errorOutput
  notes := h.events.notes

end Quieter

end Step

namespace Session

/-! ## The log stays open -/

theorem run_logOpen (settings : Settings) (fuel : Nat) (s : Session) (program : Program Binding) :
    (run settings fuel s program).session.logOpen = s.logOpen := by
  unfold run
  split
  · rfl
  · dsimp only
    split <;> rfl

theorem submit_logOpen (settings : Settings) (fuel : Nat) (s : Session) (source : String) :
    (s.submit settings fuel source).session.logOpen = s.logOpen := by
  unfold submit
  dsimp only
  split
  · rfl
  · unfold resolveAndRun precede
    dsimp only
    split
    · exact run_logOpen ..
    · rfl

theorem answer_logOpen (settings : Settings) (s : Session) (request : Request) :
    (s.answer settings request).session.logOpen = s.logOpen := by
  cases request with
  | submit fuel source => exact submit_logOpen settings fuel s source
  | forgive => rfl

/-! ## Steps at two verbosities -/

section

variable {settings : Settings} {n k : Nat} (h : n ≤ k)
include h

theorem note_quieter (level : Nat) (line : String) :
    Event.Quieter (note (settings.atVerbosity n) level line)
      (note (settings.atVerbosity k) level line) := by
  have hn : (settings.atVerbosity n).verbosity = n := rfl
  have hk : (settings.atVerbosity k).verbosity = k := rfl
  unfold note
  rw [hn, hk]
  by_cases hlow : level ≤ n
  · rw [if_pos hlow, if_pos (Nat.le_trans hlow h)]
    exact .refl _
  · rw [if_neg hlow]
    split
    · exact .leaveOut line .nil
    · exact .nil

theorem run_quieter (fuel : Nat) (s : Session) (program : Program Binding) :
    (run (settings.atVerbosity n) fuel s program).Quieter
      (run (settings.atVerbosity k) fuel s program) := by
  let m : Machine := ⟨s.heap, s.readings, #[]⟩
  have hm : quieter.machines () m m := ⟨rfl, rfl, .nil⟩
  have hquieter : Run.Quieter (Run.program (settings.atVerbosity n) fuel program)
      (Run.program (settings.atVerbosity k) fuel program) := quieter_program h fuel program
  have hrun := hquieter m m hm
  unfold run
  generalize Run.program (settings.atVerbosity n) fuel program m = r at hrun ⊢
  generalize Run.program (settings.atVerbosity k) fuel program m = r' at hrun ⊢
  cases hrun with
  | ok _ hm _ =>
    obtain ⟨hheap, hreadings, hevents⟩ := hm
    exact ⟨by simp only [hheap, hreadings], rfl, hevents⟩
  | @error _ e _ _ _ _ hm he =>
    obtain ⟨hheap, hreadings, hevents⟩ := hm
    obtain rfl : _ = e := he
    dsimp only
    rw [hheap, hreadings]
    split
    · exact ⟨rfl, rfl, (hevents.append (note_quieter h 1 _)).append (.refl _)⟩
    · exact ⟨rfl, rfl, hevents⟩

theorem submit_quieter (fuel : Nat) (s : Session) (source : String) :
    (s.submit (settings.atVerbosity n) fuel source).Quieter
      (s.submit (settings.atVerbosity k) fuel source) := by
  unfold submit
  dsimp only
  split
  · exact ⟨rfl, rfl, .refl _⟩
  · refine .precede ((Event.Quieter.refl _).append (note_quieter h 1 _)) ?_
    unfold resolveAndRun
    dsimp only
    split
    · exact .precede (note_quieter h 1 _) (run_quieter h fuel _ _)
    · exact ⟨rfl, rfl, .refl _⟩

theorem answer_quieter (s : Session) (request : Request) :
    (s.answer (settings.atVerbosity n) request).Quieter
      (s.answer (settings.atVerbosity k) request) := by
  cases request with
  | submit fuel source => exact submit_quieter h fuel s source
  | forgive => exact ⟨rfl, rfl, .nil⟩

end

theorem notes_sublist {steps steps' : List Step} (h : List.Forall₂ Step.FewerNotes steps steps') :
    (steps.flatMap Step.notes).Sublist (steps'.flatMap Step.notes) := by
  induction h with
  | nil => exact .refl _
  | cons hstep _ ih =>
    rw [List.flatMap_cons, List.flatMap_cons]
    exact hstep.notes.append ih

/-- A session with an open log does the same at every verbosity: each of its steps writes the
same output and error output, leaves the same globals and marks and is abandoned for the same
reason.  At a lower verbosity the notes of each step, and those of the whole session, are some
of the notes at a higher one in the same order. -/
theorem answers_quieter (settings : Settings) {n k : Nat} (h : n ≤ k) {s : Session}
    (hopen : s.logOpen = true) (requests : List Request) :
    List.Forall₂ Step.FewerNotes (s.answers (settings.atVerbosity n) requests)
        (s.answers (settings.atVerbosity k) requests) ∧
      ((s.answers (settings.atVerbosity n) requests).flatMap Step.notes).Sublist
        ((s.answers (settings.atVerbosity k) requests).flatMap Step.notes) := by
  suffices hsteps : List.Forall₂ Step.FewerNotes (s.answers (settings.atVerbosity n) requests)
      (s.answers (settings.atVerbosity k) requests) from ⟨hsteps, notes_sublist hsteps⟩
  induction requests generalizing s with
  | nil => exact .nil
  | cons request rest ih =>
    have hstep : (s.answer (settings.atVerbosity n) request).Quieter
        (s.answer (settings.atVerbosity k) request) := answer_quieter h s request
    have hopen' : (s.answer (settings.atVerbosity n) request).session.logOpen = true := by
      rw [answer_logOpen, hopen]
    refine .cons (hstep.fewerNotes hopen') ?_
    have hrest := ih hopen'
    rw [← hstep.session]
    exact hrest

/-- A session with a loop, a mistake and a failure, at two verbosities.  The lower one leaves
out the notes about the declaration and the condition. -/
theorem answers_quieter_loop :
    let settings : Settings := .standard 0 fun _ => 0
    let requests : List Request :=
      [.submit 20 "var a = true; while (a) \x7b print a; a = nil; \x7d", .submit 20 "print",
        .submit 20 "print a;", .forgive, .submit 20 "-a;"]
    let quiet := Session.start.answers (settings.atVerbosity 1) requests
    let noisy := Session.start.answers (settings.atVerbosity 3) requests
    1 ≤ 3 ∧ Session.start.logOpen = true ∧
      (List.Forall₂ Step.FewerNotes quiet noisy ∧
        (quiet.flatMap Step.notes).Sublist (noisy.flatMap Step.notes)) ∧
      quiet.map Step.notes =
        [["parsed 2 statements", "resolved 0 local references"], [], [], [],
          ["parsed 1 statements", "resolved 0 local references",
            "runtime error: Operand must be a number. [line 1]"]] ∧
      noisy.map Step.notes =
        [["parsed 2 statements", "resolved 0 local references", "declare a: boolean = true",
          "while condition true -> True", "while condition nil -> False"], [], [], [],
          ["parsed 1 statements", "resolved 0 local references",
            "runtime error: Operand must be a number. [line 1]"]] := by
  intro settings requests quiet noisy
  exact ⟨by decide, rfl, answers_quieter settings (by decide) rfl requests,
    by decide +kernel, by decide +kernel⟩

end Session

end ClassScript
