import ClassScript.CommandLine.Execution
import ClassScript.Proofs.Session.Alike

/-!
# Lines of the prompt

The steps of a prompt are listed with their lines (`promptSteps`), and what the prompt
writes is put together from them (`promptLines_eq_transcript`).

A line with a mistake leaves nothing behind but references on record, and no step reads
the record.  So the sessions with and without such lines are *alike*, step by step, and
the other lines do the same in both (`promptSteps_rejected`).
-/

namespace ClassScript

namespace CommandLine

/-! ## Steps of the prompt -/

/-- The steps of the prompt on some lines, each with its line. -/
def promptSteps (settings : Settings) : Session → List String → List (String × Step)
  | _, [] => []
  | session, line :: rest =>
    let step := promptStep settings session line
    (line, step) ::
      match step.abort with
      | some _ => []
      | none => promptSteps settings step.session rest

theorem promptSteps_of_none {settings : Settings} {s : Session} {line : String}
    (h : (promptStep settings s line).abort = none) (rest : List String) :
    promptSteps settings s (line :: rest) =
      (line, promptStep settings s line) ::
        promptSteps settings (promptStep settings s line).session rest := by
  rw [promptSteps, h]

theorem promptSteps_of_some {settings : Settings} {s : Session} {line : String} {abort : Abort}
    (h : (promptStep settings s line).abort = some abort) (rest : List String) :
    promptSteps settings s (line :: rest) = [(line, promptStep settings s line)] := by
  rw [promptSteps, h]

/-- What the prompt writes and how it ends, for its steps. -/
def transcript : List (String × Step) → String × List Event × Ending
  | [] => (promptText ++ "\n", [], .exit 0)
  | (_, step) :: rest =>
    let output := promptText ++ Event.output true step.events
    match step.abort with
    | some abort => (output, step.events, .aborted abort)
    | none =>
      let (later, events, ending) := transcript rest
      (output ++ later, step.events ++ events, ending)

/-- What the prompt writes is put together from its steps. -/
theorem promptLines_eq_transcript (settings : Settings) (s : Session) (lines : List String) :
    promptLines settings s lines = transcript (promptSteps settings s lines) := by
  induction lines generalizing s with
  | nil => rfl
  | cons line rest ih =>
    unfold promptLines promptSteps transcript
    dsimp only
    cases (promptStep settings s line).abort with
    | none => simp only [ih]
    | some abort => rfl

/-- Steps with their lines that do the same. -/
def SameStep (p q : String × Step) : Prop := q.1 = p.1 ∧ p.2.Alike q.2

theorem transcript_congr {steps steps' : List (String × Step)}
    (h : List.Forall₂ SameStep steps steps') : transcript steps' = transcript steps := by
  induction h with
  | nil => rfl
  | @cons p q _ _ hpq _ ih =>
    obtain ⟨line, step⟩ := p
    obtain ⟨line', step'⟩ := q
    obtain ⟨-, hstep⟩ := hpq
    have hevents : step'.events = step.events := hstep.events
    have habort : step'.abort = step.abort := hstep.abort
    unfold transcript
    simp only [hevents, habort, ih]

variable {settings : Settings} {s t : Session}

theorem promptStep_alike (hv : settings.verbosity = 0) (h : s.Alike t) (line : String) :
    (promptStep settings s line).Alike (promptStep settings t line) := by
  have hstep := Session.submit_alike hv ampleFuel h line
  exact ⟨hstep.events, hstep.abort, hstep.session.forgive⟩

/-- A line with a mistake is answered with reports of mistakes and leaves nothing behind
but references on record. -/
theorem promptStep_rejected (hv : settings.verbosity = 0) (hs : s.hadError = false) {line : String}
    (hd : (promptStep settings s line).Diagnosed) :
    (∃ diagnostics : List Diagnostic,
      (promptStep settings s line).events = diagnostics.map .diagnosed) ∧
      (promptStep settings s line).abort = none ∧
      s.Alike (promptStep settings s line).session := by
  have hrejected : ¬ s.Accepts line := fun h =>
    (Session.accepts_iff settings ampleFuel).mp h (.inr hd)
  obtain ⟨notes, diagnostics, references, heq, hnotes, -⟩ :=
    Session.submit_of_rejected settings ampleFuel hrejected
  unfold promptStep
  rw [heq, hnotes.eq_nil hv]
  refine ⟨⟨diagnostics, rfl⟩, rfl, references, ?_⟩
  unfold Session.forgive
  rw [← hs]

/-- Every step of the prompt starts without a mark. -/
theorem mem_promptSteps (hs : s.hadError = false) {lines : List String} {p : String × Step}
    (hp : p ∈ promptSteps settings s lines) :
    ∃ u : Session, u.hadError = false ∧ p.2 = promptStep settings u p.1 := by
  induction lines generalizing s with
  | nil => cases hp
  | cons line rest ih =>
    rw [promptSteps] at hp
    rcases List.mem_cons.mp hp with rfl | hp
    · exact ⟨s, hs, rfl⟩
    · split at hp
      · cases hp
      · exact ih (s := (promptStep settings s line).session) rfl hp

/-- Lines with mistakes can be left out. -/
theorem promptSteps_rejected (hv : settings.verbosity = 0) (hs : s.hadError = false)
    (h : s.Alike t) (lines : List String) :
    let steps := promptSteps settings s lines
    let kept := steps.filter fun p => ¬ p.2.Diagnosed
    List.Forall₂ SameStep kept
      (promptSteps settings t (kept.map Prod.fst ++ lines.drop steps.length)) := by
  induction lines generalizing s t with
  | nil => exact .nil
  | cons line rest ih =>
    by_cases hd : (promptStep settings s line).Diagnosed
    · obtain ⟨-, habort, halike⟩ := promptStep_rejected hv hs hd
      simpa [promptSteps_of_none habort, hd] using
        ih (s := (promptStep settings s line).session) rfl (halike.symm.trans h)
    · have hstep := promptStep_alike hv h line
      cases habort : (promptStep settings s line).abort with
      | some abort =>
        simpa [promptSteps_of_some habort, promptSteps_of_some (hstep.abort.trans habort), hd]
          using ⟨rfl, hstep⟩
      | none =>
        have hrest := ih (s := (promptStep settings s line).session) rfl hstep.session
        simpa [promptSteps_of_none habort, promptSteps_of_none (hstep.abort.trans habort), hd]
          using ⟨⟨rfl, hstep⟩, by simpa using hrest⟩

/-- Every line with a mistake can be left out of a prompt.  It writes nothing to the
output but its prompt and only reports of mistakes besides, and the other lines do the
same without it. -/
theorem promptLines_rejected (hv : settings.verbosity = 0) (hs : s.hadError = false)
    (lines : List String) :
    let steps := promptSteps settings s lines
    let kept := steps.filter fun p => ¬ p.2.Diagnosed
    let keptLines := kept.map Prod.fst ++ lines.drop steps.length
    (∀ p ∈ steps, p.2.Diagnosed → Event.output true p.2.events = "" ∧
      ∀ e ∈ p.2.events, ∃ d, e = .diagnosed d) ∧
    List.Forall₂ SameStep kept (promptSteps settings s keptLines) ∧
    promptLines settings s lines = transcript steps ∧
    promptLines settings s keptLines = transcript kept := by
  intro steps kept keptLines
  have hkept := promptSteps_rejected hv hs (.refl s) lines
  refine ⟨?_, hkept, promptLines_eq_transcript settings s lines, ?_⟩
  · intro p hp hd
    obtain ⟨u, hu, hstep⟩ := mem_promptSteps hs hp
    rw [hstep] at hd ⊢
    obtain ⟨⟨diagnostics, hevents⟩, -⟩ := promptStep_rejected hv hu hd
    rw [hevents]
    refine ⟨Event.output_of_forall fun e he => ?_, fun e he => ?_⟩
    · obtain ⟨d, -, rfl⟩ := List.mem_map.mp he
      rfl
    · obtain ⟨d, -, rfl⟩ := List.mem_map.mp he
      exact ⟨d, rfl⟩
  · rw [promptLines_eq_transcript]
    exact transcript_congr hkept

/-- Lines of which one does not end and one declares a variable of a block twice. -/
theorem promptLines_rejected_twice :
    let settings : Settings := .standard 0 fun _ => 0
    let lines := ["var a = 1;", "print a", "\x7b var b; print a; var b; \x7d", "print a;", "-nil;"]
    let steps := promptSteps settings .start lines
    let kept := steps.filter fun p => ¬ p.2.Diagnosed
    let keptLines := kept.map Prod.fst ++ lines.drop steps.length
    settings.verbosity = 0 ∧ Session.start.hadError = false ∧
    (∀ p ∈ steps, p.2.Diagnosed → Event.output true p.2.events = "" ∧
      ∀ e ∈ p.2.events, ∃ d, e = .diagnosed d) ∧
    List.Forall₂ SameStep kept (promptSteps settings .start keptLines) ∧
    promptLines settings .start lines = transcript steps ∧
    promptLines settings .start keptLines = transcript kept :=
  ⟨rfl, rfl, promptLines_rejected rfl rfl _⟩

end CommandLine

end ClassScript
