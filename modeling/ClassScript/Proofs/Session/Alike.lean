import ClassScript.Proofs.Session.Reports

/-!
# Sessions that are alike

A session keeps a record of the references that its programs bound to local scopes.
No program reads it, and neither does a session, as long as nothing is noted.  So sessions
that are the same but for their records do the same (`Session.submit_alike`), and an
accepted text does what its program does (`Session.submit_eq_run`).
-/

namespace ClassScript

/-- The session with another record of references. -/
def Session.record (s : Session) (references : Array LocalReference) : Session :=
  { s with references }

/-- The step with another record of references in the session that it leaves. -/
def Step.record (step : Step) (references : Array LocalReference) : Step :=
  { step with session := step.session.record references }

/-- Sessions that are the same but for their records of references. -/
def Session.Alike (s t : Session) : Prop := ∃ references, t = { s with references }

/-- Steps that do the same and leave sessions that are alike. -/
structure Step.Alike (step step' : Step) : Prop where
  events : step'.events = step.events
  abort : step'.abort = step.abort
  session : step.session.Alike step'.session

namespace Session

variable {settings : Settings} {s t u : Session}

theorem Alike.refl (s : Session) : s.Alike s := ⟨s.references, rfl⟩

theorem Alike.trans (h : s.Alike t) (h' : t.Alike u) : s.Alike u := by
  obtain ⟨r, rfl⟩ := h
  obtain ⟨r', rfl⟩ := h'
  exact ⟨r', rfl⟩

theorem Alike.symm (h : s.Alike t) : t.Alike s := by
  obtain ⟨r, rfl⟩ := h
  exact ⟨s.references, rfl⟩

theorem Alike.forgive (h : s.Alike t) : s.forgive.Alike t.forgive := by
  obtain ⟨r, rfl⟩ := h
  exact ⟨r, rfl⟩

theorem note_of_verbosity (hv : settings.verbosity = 0) (line : String) :
    note settings 1 line = [] := by
  unfold note
  rw [if_neg (by omega)]

/-- A run leaves the record of references as it is. -/
theorem run_references (settings : Settings) (fuel : Nat) (s : Session)
    (references : Array LocalReference) (program : Program Binding) :
    run settings fuel (s.record references) program =
      (run settings fuel s program).record references := by
  unfold run record
  dsimp only
  cases Run.program settings fuel program ⟨s.heap, s.readings, #[]⟩ with
  | ok a m => rfl
  | error abort m => cases abort <;> rfl

/-- A run does not read the record of references. -/
theorem run_alike (settings : Settings) (fuel : Nat) (h : s.Alike t) (program : Program Binding) :
    (run settings fuel s program).Alike (run settings fuel t program) := by
  obtain ⟨r, rfl⟩ := h
  have hrun : run settings fuel { s with references := r } program = _ :=
    run_references settings fuel s r program
  rw [hrun]
  exact ⟨rfl, rfl, r, rfl⟩

/-- A step does not read the record of references, as long as nothing is noted. -/
theorem submit_alike (hv : settings.verbosity = 0) (fuel : Nat) (h : s.Alike t)
    (source : String) : (s.submit settings fuel source).Alike (t.submit settings fuel source) := by
  obtain ⟨r, rfl⟩ := h
  unfold submit
  dsimp only
  split
  · exact ⟨rfl, rfl, r, rfl⟩
  · unfold resolveAndRun precede
    dsimp only
    simp only [note_of_verbosity hv]
    split
    · have hrun := run_alike settings fuel (s := { s with
          hadError := s.hadError || !(Reading.ofSource source).diagnostics.isEmpty
          references := s.references ++
            (Resolution.ofProgram (Reading.ofSource source).program).references })
        ⟨r ++ (Resolution.ofProgram (Reading.ofSource source).program).references, rfl⟩
        (Resolution.ofProgram (Reading.ofSource source).program).program
      exact ⟨by rw [hrun.events], hrun.abort, hrun.session⟩
    · exact ⟨rfl, rfl, _, rfl⟩

theorem accepts_iff_reading {source : String} :
    s.Accepts source ↔ s.hadError = false ∧ ∃ p, Reading.ofSource source = ⟨p, []⟩ ∧
      (Resolution.ofProgram p).diagnostics = [] := by
  constructor
  · rintro ⟨herror, hread, hresolve⟩
    refine ⟨herror, _, ?_, hresolve⟩
    rw [← hread]
  · rintro ⟨herror, p, hread, hresolve⟩
    unfold Accepts
    rw [hread]
    exact ⟨herror, rfl, hresolve⟩

/-- An accepted text does what its program does, as long as nothing is noted. -/
theorem submit_eq_run (hv : settings.verbosity = 0) (fuel : Nat) (herror : s.hadError = false)
    {source : String} {p : Program Unit} (hread : Reading.ofSource source = ⟨p, []⟩)
    (hresolve : (Resolution.ofProgram p).diagnostics = []) :
    s.submit settings fuel source =
      (run settings fuel s (Resolution.ofProgram p).program).record
        (s.references ++ (Resolution.ofProgram p).references) := by
  obtain ⟨notes, references, heq, rfl, hnotes⟩ := submit_of_accepted settings fuel
    (accepts_iff_reading.mpr ⟨herror, p, hread, hresolve⟩)
  rw [heq, hnotes.eq_nil hv, hread, ← run_references]
  rfl

end Session

end ClassScript
