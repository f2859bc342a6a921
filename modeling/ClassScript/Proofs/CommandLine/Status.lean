import ClassScript.CommandLine.Execution
import ClassScript.Proofs.Session.Reports

/-!
# The exit status

The exit status of a script tells from outside what its step did.  It is 65 just if a
mistake was reported, in which case nothing was printed, and 70 just if a failure was
reported (`run_operand`).
-/

namespace ClassScript.CommandLine

/-- A report that tells what a step did. -/
structure Report.Tells (step : Step) (report : Report) : Prop where
  output : report.output = Event.output true step.events
  errors : report.errors = Event.errorOutput step.events
  /-- With the report of a mistake there is no output. -/
  silent : step.Diagnosed → report.output = ""
  mistake : step.abort = none → (report.ending = .exit 65 ↔ step.Diagnosed)
  failure : step.abort = none → (report.ending = .exit 70 ↔ ¬ step.Diagnosed ∧ step.Failed)
  success : step.abort = none → (report.ending = .exit 0 ↔ ¬ step.Diagnosed ∧ ¬ step.Failed)

/-- The report of a script tells what its step did. -/
theorem scriptReport_tells (world : World) (source : String) :
    (scriptReport world 0 source).Tells
      (Session.start.submit (.standard 0 world.clock) ampleFuel source) := by
  have hstep : Step.AllOrNothing .start source
      (Session.start.submit (.standard 0 world.clock) ampleFuel source) :=
    Session.submit_allOrNothing (.inl rfl) ampleFuel source
  unfold scriptReport
  generalize Session.start.submit (.standard 0 world.clock) ampleFuel source = step at hstep ⊢
  refine ⟨rfl, rfl, fun h => (hstep.nothing (.inr h)).1, fun h => ?_, fun h => ?_, fun h => ?_⟩
  all_goals
    by_cases hd : step.Diagnosed
    · have herror := (hstep.nothing (.inr hd)).2.2.2.2
      simp [Ending.ofStep, h, herror, hd, mistakeStatus]
    · obtain ⟨herror, -, hfailure⟩ := hstep.all (by simp [hd, Session.start])
      by_cases hf : step.Failed
      · have hfailure := hfailure.mpr (.inr hf)
        simp [Ending.ofStep, h, herror, hfailure, hd, hf, failureStatus]
      · have hfailure : step.session.hadFailure = false := by
          rw [Bool.eq_false_iff, ne_eq, hfailure]
          simp [hf, Session.start]
        simp [Ending.ofStep, h, herror, hfailure, hd, hf]

/-- A single operand asks for a script. -/
theorem ofArguments_operand {path : String} (h : Word.ofText path = .ok (.operand path)) :
    Options.ofArguments [path] = .ok ⟨0, none, some path⟩ := by
  have hdashes : path ≠ "--" := by
    rintro rfl
    revert h
    decide
  simp [Options.ofArguments, splitRest, hdashes, wordsOfTexts, h, takeWords, Progress.start,
    Progress.takeOperand, Script.name?]

/-- A single operand that names a file runs its text, with line ends made plain. -/
theorem run_operand {world : World} {path text : String} (hne : path ≠ "")
    (hword : Word.ofText path = .ok (.operand path))
    (hfile : world.entry? (Text.simplifyPath path) = some (.file text)) :
    run world [path] = .ok (scriptReport world 0 (Text.normalizeNewlines text)) := by
  have hscript : nonempty (some path) = some path := by
    unfold nonempty
    simp [Option.filter, hne]
  have haction : Options.action ⟨0, none, some path⟩ = .script path := by
    simp only [Options.action, hscript]
    rfl
  unfold run
  rw [ofArguments_operand hword]
  simp only [execute, haction, withFile, hfile]

/-- Every step of every session either reports mistakes and does nothing else, or runs
its program and reports its failure last.  So the exit status of every script tells
which of them it was. -/
theorem allOrNothing :
    (∀ (settings : Settings) (s : Session) (fuel : Nat) (source : String),
      settings.verbosity = 0 ∨ s.logOpen = true →
        Step.AllOrNothing s source (s.submit settings fuel source)) ∧
    ∀ (world : World) (path text : String), path ≠ "" → Word.ofText path = .ok (.operand path) →
      world.entry? (Text.simplifyPath path) = some (.file text) →
        ∃ report, run world [path] = .ok report ∧
          report.Tells (Session.start.submit (.standard 0 world.clock) ampleFuel
            (Text.normalizeNewlines text)) :=
  ⟨fun _ _ fuel source hlog => Session.submit_allOrNothing hlog fuel source,
    fun world _ text hne hword hfile =>
      ⟨_, run_operand hne hword hfile, scriptReport_tells world (Text.normalizeNewlines text)⟩⟩

/-- A script that prints and then fails, and a text with a mistake in a session that is
under way. -/
theorem allOrNothing_failing :
    let world : World := ⟨fun _ => some (.file "print 1;\r\nprint -nil;"), "", fun _ => 0⟩
    let settings : Settings := .standard 0 world.clock
    let s := (Session.start.submit settings ampleFuel "var a = 1;").session
    ((settings.verbosity = 0 ∨ s.logOpen = true) ∧
      Step.AllOrNothing s "print a; a = ;" (s.submit settings ampleFuel "print a; a = ;")) ∧
    "a.ls" ≠ "" ∧ Word.ofText "a.ls" = .ok (.operand "a.ls") ∧
      world.entry? (Text.simplifyPath "a.ls") = some (.file "print 1;\r\nprint -nil;") ∧
        ∃ report, run world ["a.ls"] = .ok report ∧
          report.Tells (Session.start.submit settings ampleFuel
            (Text.normalizeNewlines "print 1;\r\nprint -nil;")) := by
  intro world settings s
  exact ⟨⟨.inl rfl, allOrNothing.1 settings s ampleFuel _ (.inl rfl)⟩, by decide, by decide, rfl,
    allOrNothing.2 world "a.ls" _ (by decide) (by decide) rfl⟩

end ClassScript.CommandLine
