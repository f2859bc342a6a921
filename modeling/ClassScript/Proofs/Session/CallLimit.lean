import ClassScript.Proofs.Evaluation.CallLimit
import ClassScript.Proofs.Session.Reports
import ClassScript.Proofs.Session.Verbosity

/-!
# Steps with two limits of calls

A step that does not overflow is the same with every higher limit of calls.  One that does
is cut short: what happens before the overflow is what happens first with a higher limit,
and then the overflow is reported, once and as the last event
(`Session.submit_atCallLimit`).
-/

namespace ClassScript

open Run

namespace Event

/-- The line that is printed. -/
def printed? : Event → Option String
  | printed line => some line
  | _ => none

theorem errorOutput_of_progress {events : List Event} (h : ∀ e ∈ events, ¬ e.IsReport) :
    Event.errorOutput events = "" := by
  unfold Event.errorOutput
  induction events with
  | nil => rfl
  | cons e rest ih =>
    have he : e.errorText = "" := by
      cases e with
      | printed line => rfl
      | noted line => rfl
      | diagnosed d => exact absurd trivial (h _ (List.mem_cons_self ..))
      | failed f => exact absurd trivial (h _ (List.mem_cons_self ..))
    rw [List.map_cons, he, String.join_cons, ih fun e he => h e (List.mem_cons_of_mem _ he)]
    rfl

theorem output_append (logOpen : Bool) (events more : List Event) :
    Event.output logOpen (events ++ more) =
      Event.output logOpen events ++ Event.output logOpen more := by
  simp [Event.output]

theorem errorOutput_append (events more : List Event) :
    Event.errorOutput (events ++ more) = Event.errorOutput events ++ Event.errorOutput more := by
  simp [Event.errorOutput]

end Event

namespace Step

/-- The lines that a step prints, in order. -/
def printed (step : Step) : List String := step.events.filterMap Event.printed?

/-- Whether a step reports an overflow. -/
def Overflows (step : Step) : Prop :=
  ∃ line, Event.failed ⟨.stackOverflow, line⟩ ∈ step.events

/-- A step of a session that overflows on the given line, after the given events. -/
structure OverflowsAt (settings : Settings) (s : Session) (before : List Event) (line : Nat)
    (step : Step) : Prop where
  /-- The report is the last event.  Nothing but a note is between it and what happened
  before. -/
  events : step.events = before ++
    Session.note settings 1 ("runtime error: " ++ (Failure.mk .stackOverflow line).summary) ++
      [.failed ⟨.stackOverflow, line⟩]
  /-- It is the only report. -/
  progress : ∀ e ∈ before, ¬ e.IsReport
  /-- The program is not abandoned without a report. -/
  abort : step.abort = none
  hadFailure : step.session.hadFailure = true
  hadError : step.session.hadError = s.hadError
  logOpen : step.session.logOpen = s.logOpen

namespace OverflowsAt

variable {settings : Settings} {s : Session} {before : List Event} {line : Nat} {step step' : Step}

theorem overflows (h : step.OverflowsAt settings s before line) : step.Overflows :=
  ⟨line, by rw [h.events]; exact List.mem_append_right _ (List.mem_singleton_self _)⟩

theorem precede {notes : List Event} (hnotes : ∀ e ∈ notes, ¬ e.IsReport)
    (h : step.OverflowsAt settings s before line) :
    (Session.precede notes step).OverflowsAt settings s (notes ++ before) line where
  events := by
    show notes ++ step.events = _
    rw [h.events]
    simp only [List.append_assoc]
  progress := List.forall_mem_append.mpr ⟨hnotes, h.progress⟩
  abort := h.abort
  hadFailure := h.hadFailure
  hadError := h.hadError
  logOpen := h.logOpen

theorem note_progress (text : String) : ∀ e ∈ Session.note settings 1 text, ¬ e.IsReport :=
  (Session.onlyNotes_note (Nat.le_refl 1) text).not_isReport

/-- What is written to the error output is the one report. -/
theorem errorOutput (h : step.OverflowsAt settings s before line) :
    step.errorOutput = (Failure.mk .stackOverflow line).text ++ "\n" := by
  unfold Step.errorOutput
  rw [h.events, Event.errorOutput_append, Event.errorOutput_append,
    Event.errorOutput_of_progress h.progress, Event.errorOutput_of_progress (note_progress _)]
  simp [Event.errorOutput, Event.errorText]

/-- Nothing is printed behind what happened before. -/
theorem printed (h : step.OverflowsAt settings s before line) :
    step.printed = before.filterMap Event.printed? := by
  unfold Step.printed
  rw [h.events, List.filterMap_append, List.filterMap_append]
  unfold Session.note
  split <;> simp [Event.printed?]

theorem output (h : step.OverflowsAt settings s before line)
    (hlog : settings.verbosity = 0 ∨ s.logOpen = true) :
    step.output = Event.output s.logOpen before := by
  have hnote : Event.output s.logOpen (Session.note settings 1
      ("runtime error: " ++ (Failure.mk .stackOverflow line).summary)) = "" := by
    rcases hlog with hlog | hlog
    · rw [(Session.onlyNotes_note (Nat.le_refl 1) _).eq_nil hlog]
      rfl
    · refine Event.output_of_forall fun e he => ?_
      obtain ⟨-, text, rfl⟩ := Session.mem_note he (Nat.le_refl 1)
      simp [Event.outputText, hlog]
  unfold Step.output
  rw [h.logOpen, h.events, Event.output_append, Event.output_append, hnote]
  simp [Event.output, Event.outputText]

end OverflowsAt

end Step

namespace Session

open Step

variable {settings : Settings} {s : Session}

/-- A run that overflows reports it as its last event. -/
theorem overflowsAt_of_failed {fuel : Nat} {program : Program Binding} {line : Nat} {m : Machine}
    (h : Run.program settings fuel program s.machine =
      .error (.failure ⟨.stackOverflow, line⟩) m) :
    (run settings fuel s program).OverflowsAt settings s m.events.toList line := by
  have hprogress := program_quiet settings fuel program (m := s.machine) rfl
  rw [h] at hprogress
  rw [run_of_failed h]
  exact ⟨rfl, hprogress, rfl, rfl, rfl, rfl⟩

/-- What is reported as an overflow is the end of the run. -/
theorem run_overflows {fuel : Nat} {program : Program Binding}
    (h : (run settings fuel s program).Overflows) :
    ∃ before line, (run settings fuel s program).OverflowsAt settings s before line := by
  obtain ⟨line, hline⟩ := h
  have hprogress := program_quiet settings fuel program (m := s.machine) rfl
  cases hrun : Run.program settings fuel program s.machine with
  | ok u m =>
    rw [hrun] at hprogress
    rw [run_of_ok hrun] at hline
    exact absurd trivial (hprogress _ hline)
  | error abort m =>
    rw [hrun] at hprogress
    by_cases hf : ∃ f, abort = .failure f
    · obtain ⟨f, rfl⟩ := hf
      rw [run_of_failed hrun] at hline
      rcases List.mem_append.mp hline with hline | hline
      · rcases List.mem_append.mp hline with hline | hline
        · exact absurd trivial (hprogress _ hline)
        · exact absurd trivial (OverflowsAt.note_progress _ _ hline)
      · obtain rfl : _ = f := Event.failed.inj (List.mem_singleton.mp hline)
        exact ⟨_, line, overflowsAt_of_failed hrun⟩
    · rw [run_of_abort (fun f h => hf ⟨f, h⟩) hrun] at hline
      exact absurd trivial (hprogress _ hline)

/-- What a run has seen when it ends is what its step tells first. -/
theorem run_events_prefix (settings : Settings) (fuel : Nat) (s : Session)
    (program : Program Binding) :
    (lastMachine (Run.program settings fuel program ⟨s.heap, s.readings, #[]⟩)).events.toList <+:
      (run settings fuel s program).events := by
  unfold run
  cases Run.program settings fuel program ⟨s.heap, s.readings, #[]⟩ with
  | ok a m => exact List.prefix_refl _
  | error abort m =>
    cases abort with
    | failure f => exact ⟨_, (List.append_assoc ..).symm⟩
    | access e => exact List.prefix_refl _
    | outOfFuel => exact List.prefix_refl _

/-- A text that is accepted runs, after the same notes at every limit of calls. -/
theorem submit_of_accepted_atCallLimit {source : String} (h : s.Accepts source)
    (settings : Settings) (fuel : Nat) :
    ∃ notes references, OnlyNotes settings notes ∧ ∀ n,
      s.submit (settings.atCallLimit n) fuel source =
        precede notes (run (settings.atCallLimit n) fuel { s with references }
          (Resolution.ofProgram (Reading.ofSource source).program).program) :=
  ⟨_, _, onlyNotes_acceptedNotes s source,
    fun n => submit_eq_of_accepts (settings.atCallLimit n) fuel h⟩

/-- One that is not accepted does not come to a call. -/
theorem submit_of_rejected_atCallLimit {source : String} (h : ¬ s.Accepts source)
    (settings : Settings) (fuel n k : Nat) :
    s.submit (settings.atCallLimit n) fuel source =
      s.submit (settings.atCallLimit k) fuel source := by
  rw [submit_eq_of_not_accepts _ fuel h, submit_eq_of_not_accepts _ fuel h]
  rfl

/-- What is reported as an overflow is the end of the step. -/
theorem submit_overflows {fuel : Nat} {source : String}
    (h : (s.submit settings fuel source).Overflows) :
    ∃ before line, (s.submit settings fuel source).OverflowsAt settings s before line := by
  obtain ⟨line, hline⟩ := h
  by_cases haccepts : s.Accepts source
  · obtain ⟨notes, references, hnotes, hsubmit⟩ :=
      submit_of_accepted_atCallLimit haccepts settings fuel
    have hstep : s.submit settings fuel source = _ := hsubmit settings.callLimit
    rw [hstep] at hline ⊢
    rcases List.mem_append.mp hline with hline | hline
    · exact absurd trivial (hnotes.not_isReport _ hline)
    · obtain ⟨before, line, hrun⟩ := run_overflows ⟨line, hline⟩
      have hrun' := hrun.precede hnotes.not_isReport
      exact ⟨_, line, hrun'.events, hrun'.progress, hrun'.abort, hrun'.hadFailure,
        hrun'.hadError, hrun'.logOpen⟩
  · obtain ⟨notes, diagnostics, references, hstep, hnotes, -⟩ :=
      submit_of_rejected settings fuel haccepts
    rw [hstep] at hline
    rcases List.mem_append.mp hline with hline | hline
    · exact absurd trivial (hnotes.not_isReport _ hline)
    · obtain ⟨d, -, hd⟩ := List.mem_map.mp hline
      cases hd

section

variable {n k : Nat} (h : n ≤ k)
include h

/-- With a lower limit a run is the same, or it is cut short by an overflow. -/
theorem run_atCallLimit (settings : Settings) (fuel : Nat) (s : Session)
    (program : Program Binding) :
    run (settings.atCallLimit n) fuel s program = run (settings.atCallLimit k) fuel s program ∨
      ∃ before line, (run (settings.atCallLimit n) fuel s program).OverflowsAt
          (settings.atCallLimit n) s before line ∧
        before <+: (run (settings.atCallLimit k) fuel s program).events := by
  have hcut : CutShort AddsProgress (Run.program (settings.atCallLimit n) fuel program)
      (Run.program (settings.atCallLimit k) fuel program) :=
    program_cutShort addsProgress_stepLaw settings h fuel program
  rcases hcut ⟨s.heap, s.readings, #[]⟩ with hsame | ⟨line, m, hover, more, hmore, -⟩
  · left
    unfold run
    rw [hsame]
    rfl
  · have hprefix := run_events_prefix (settings.atCallLimit k) fuel s program
    exact .inr ⟨m.events.toList, line, overflowsAt_of_failed hover,
      (List.prefix_append _ more).trans (hmore ▸ hprefix)⟩

theorem submit_cutShort (settings : Settings) (fuel : Nat) (s : Session) (source : String) :
    s.submit (settings.atCallLimit n) fuel source =
        s.submit (settings.atCallLimit k) fuel source ∨
      ∃ before line,
        (s.submit (settings.atCallLimit n) fuel source).OverflowsAt settings s before line ∧
        before <+: (s.submit (settings.atCallLimit k) fuel source).events := by
  by_cases haccepts : s.Accepts source
  · obtain ⟨notes, references, hnotes, hsubmit⟩ :=
      submit_of_accepted_atCallLimit haccepts settings fuel
    rw [hsubmit, hsubmit]
    rcases run_atCallLimit h settings fuel { s with references }
      (Resolution.ofProgram (Reading.ofSource source).program).program with
      hsame | ⟨before, line, hover, hprefix⟩
    · exact .inl (congrArg (precede notes) hsame)
    · have hover' := hover.precede hnotes.not_isReport
      exact .inr ⟨notes ++ before, line, ⟨hover'.events, hover'.progress, hover'.abort,
        hover'.hadFailure, hover'.hadError, hover'.logOpen⟩,
        (List.prefix_append_right_inj notes).mpr hprefix⟩
  · exact .inl (submit_of_rejected_atCallLimit haccepts settings fuel n k)

/-- An overflow only truncates a step.  A step that does not overflow is the same with every
higher limit of calls: it leaves the same session and the same events.  One that does has
done what happens first with a higher limit, and then it reports the overflow, which is its
one report and its last event.  So what it prints is the beginning of what is printed with
a higher limit; and what it writes to the output, too, as long as notes are not written
there. -/
theorem submit_atCallLimit (settings : Settings) (fuel : Nat) (s : Session) (source : String) :
    let step := s.submit (settings.atCallLimit n) fuel source
    let step' := s.submit (settings.atCallLimit k) fuel source
    (¬ step.Overflows → step = step') ∧
      (step.Overflows → ∃ before line, step.OverflowsAt settings s before line ∧
        before <+: step'.events ∧ step.printed = before.filterMap Event.printed? ∧
        step.errorOutput = (Failure.mk .stackOverflow line).text ++ "\n") ∧
      step.printed <+: step'.printed ∧
      (settings.verbosity = 0 ∨ s.logOpen = true → ∃ more, step'.output = step.output ++ more) := by
  intro step step'
  have hcut := submit_cutShort h settings fuel s source
  refine ⟨fun hnone => ?_, fun hover => ?_, ?_, fun hlog => ?_⟩
  · rcases hcut with hsame | ⟨before, line, hat, -⟩
    · exact hsame
    · exact absurd hat.overflows hnone
  · rcases hcut with hsame | ⟨before, line, hat, hprefix⟩
    · have hover : (s.submit (settings.atCallLimit n) fuel source).Overflows := hover
      obtain ⟨before, line, hat⟩ := submit_overflows hover
      refine ⟨before, line, ⟨hat.events, hat.progress, hat.abort, hat.hadFailure, hat.hadError,
        hat.logOpen⟩, ?_, hat.printed, hat.errorOutput⟩
      rw [← show step = step' from hsame, hat.events, List.append_assoc]
      exact List.prefix_append _ _
    · exact ⟨before, line, hat, hprefix, hat.printed, hat.errorOutput⟩
  · rcases hcut with hsame | ⟨before, line, hat, hprefix⟩
    · exact (show step = step' from hsame) ▸ List.prefix_refl _
    · rw [hat.printed]
      exact hprefix.filterMap _
  · rcases hcut with hsame | ⟨before, line, hat, more, hmore⟩
    · exact ⟨"", by rw [← show step = step' from hsame, String.append_empty]⟩
    · refine ⟨Event.output s.logOpen more, ?_⟩
      rw [hat.output hlog, ← Event.output_append, hmore]
      exact congrArg (Event.output · step'.events) (submit_logOpen ..)

end

/-- A function that calls itself for ever, with two limits of calls. -/
theorem submit_atCallLimit_recursion :
    let settings : Settings := .standard 1 fun _ => 0
    let source := "fun f(x) \x7b print x; f(x + \"a\"); \x7d f(\"\");"
    let step := Session.start.submit (settings.atCallLimit 2) 60 source
    let step' := Session.start.submit (settings.atCallLimit 3) 60 source
    2 ≤ 3 ∧ step.printed = ["", "a"] ∧ step'.printed = ["", "a", "aa"] ∧
      step.printed <+: step'.printed ∧ ∃ more, step'.output = step.output ++ more := by
  intro settings source step step'
  obtain ⟨-, -, hprinted, houtput⟩ :=
    submit_atCallLimit (n := 2) (k := 3) (by decide) settings 60 Session.start source
  exact ⟨by decide, by decide +kernel, by decide +kernel, hprinted, houtput (.inr rfl)⟩

end Session

end ClassScript
