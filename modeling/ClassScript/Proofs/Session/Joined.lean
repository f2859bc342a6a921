import ClassScript.Proofs.Lines.Evaluation
import ClassScript.Proofs.Lines.Resolution
import ClassScript.Proofs.Lines.Syntax
import ClassScript.Proofs.Session.Alike
import ClassScript.Proofs.Syntax.Reading

/-!
# Programs in pieces

A text and another one below it are answered like the two texts one after the other, if
each is accepted and the first one completes (`Session.submit_joined`).  What differs are
the lines of the second text.  A failure may be on a line of it, and then moves with it,
or on a line of an earlier text, whose functions it calls (`Session.blames`).

To tell the two apart, the lines of a program are made odd and all others even
(`Run.program_told`).  One such run says how the program runs on any lines.
-/

namespace ClassScript

/-! ## Steps on other lines -/

/-- An event on another line.  Only reports have one. -/
def Event.reline (f : Nat → Nat) : Event → Event
  | .printed line => .printed line
  | .diagnosed d => .diagnosed (d.reline f)
  | .failed failure => .failed (failure.reline f)
  | .noted line => .noted line

theorem Event.reline_of_not_isReport {f : Nat → Nat} {e : Event} (h : ¬ e.IsReport) :
    e.reline f = e := by
  cases e with
  | printed | noted => rfl
  | diagnosed | failed => exact absurd trivial h

theorem Event.map_reline {f : Nat → Nat} {events : List Event} (h : ∀ e ∈ events, ¬ e.IsReport) :
    events.map (reline f) = events :=
  (List.map_congr_left fun e he => reline_of_not_isReport (h e he)).trans (List.map_id' events)

/-- A session on other lines. -/
def Session.reline (f : Nat → Nat) (s : Session) : Session :=
  { s with
    heap := s.heap.reline f
    references := s.references.map (LocalReference.reline f) }

/-- Sessions that are the same but for the lines of their programs. -/
def Session.SameButLines (s t : Session) : Prop := s.reline (fun _ => 0) = t.reline (fun _ => 0)

/-- Steps that do the same, but report their mistakes and failures on other lines. -/
structure Step.Relined (f : Nat → Nat) (step step' : Step) : Prop where
  events : step'.events = step.events.map (Event.reline f)
  abort : step'.abort = step.abort
  session : step'.session.SameButLines step.session

theorem Step.Relined.precede {f : Nat → Nat} {step step' : Step} (h : step.Relined f step')
    {events : List Event} (hquiet : ∀ e ∈ events, ¬ e.IsReport) :
    (Session.precede events step).Relined f (Session.precede events step') where
  events := by simp only [Session.precede, List.map_append, h.events, Event.map_reline hquiet]
  abort := h.abort
  session := h.session

/-- Whether a step comes to the end of its program. -/
def Step.Completes (step : Step) : Prop := step.abort = none ∧ ¬ step.Failed

namespace Run

variable (settings : Settings) (fuel : Nat)

/-! ## Programs in sequence -/

theorem program_append (p q : Program Binding) :
    program settings fuel (p ++ q) =
      program settings fuel p >>= fun _ => program settings fuel q := by
  induction p with
  | nil => simp [program]
  | cons s rest ih => simp [program, ih]

/-- What happened before a program makes no difference to it. -/
theorem program_after (p : Program Binding) (before : Array Event) (m : Machine) :
    program settings fuel p { m with events := before ++ m.events } =
      match program settings fuel p m with
      | .ok u m' => .ok u { m' with events := before ++ m'.events }
      | .error e m' => .error e { m' with events := before ++ m'.events } := by
  have hm : ∀ m : Machine, m.reline id before = { m with events := before ++ m.events } := by
    intro m
    rw [Machine.reline, Heap.reline_id]
  have habort : ∀ e : Abort, e.reline id = e := by
    intro e
    cases e <;> rfl
  have h := program_mirrors settings id before fuel p m
  simp only [relineStmts_id, hm, habort] at h
  rw [h]
  cases program settings fuel p m <;> rfl

/-! ## Lines told apart -/

/-- The line of a program that is told apart from all other lines. -/
def ownLine (line : Nat) : Nat := 2 * line + 1

/-- A line that is none of the program. -/
def otherLine (line : Nat) : Nat := 2 * line

/-- Changes the lines of the program and leaves the others as they were. -/
def tellLine (f : Nat → Nat) (line : Nat) : Nat :=
  if line % 2 = 0 then line / 2 else f (line / 2)

theorem tellLine_comp_ownLine (f : Nat → Nat) : tellLine f ∘ ownLine = f := by
  funext line
  have hhalf : (2 * line + 1) / 2 = line := by omega
  simp [tellLine, ownLine, hhalf]

theorem tellLine_comp_otherLine (f : Nat → Nat) : tellLine f ∘ otherLine = id := by
  funext line
  simp [tellLine, otherLine]

/-- A program runs on any lines as it does with its lines told apart. -/
theorem program_told (p : Program Binding) (m : Machine) (f : Nat → Nat) :
    program settings fuel (relineStmts f p) m =
      match program settings fuel (relineStmts ownLine p) (m.reline otherLine #[]) with
      | .ok u m' => .ok u (m'.reline (tellLine f) #[])
      | .error e m' => .error (e.reline (tellLine f)) (m'.reline (tellLine f) #[]) := by
  have h := program_mirrors settings (tellLine f) #[] fuel (relineStmts ownLine p)
    (m.reline otherLine #[])
  have hm : (m.reline otherLine #[]).reline (tellLine f) #[] = m := by
    simp [Machine.reline, Heap.reline_comp, tellLine_comp_otherLine, Heap.reline_id]
  rw [relineStmts_comp, tellLine_comp_ownLine, hm] at h
  rw [h]
  cases program settings fuel (relineStmts ownLine p) (m.reline otherLine #[]) <;> rfl

end Run

open Run

namespace Session

variable {settings : Settings} {fuel : Nat} {s : Session}

/-! ## Runs in sequence -/

/-- A failure is all that is reported of a run, as long as nothing is noted. -/
theorem run_of_failure (hv : settings.verbosity = 0) {p : Program Binding} {m : Machine}
    {failure : Failure}
    (h : Run.program settings fuel p s.machine = .error (.failure failure) m) :
    run settings fuel s p =
      ⟨{ s with hadFailure := true }.after m, m.events.toList ++ [.failed failure], none⟩ := by
  rw [run_of_failed h, note_of_verbosity hv, List.append_nil]

/-- A program that completes is followed by the next one. -/
theorem run_append (hv : settings.verbosity = 0) {p : Program Binding}
    (h : (run settings fuel s p).Completes) (q : Program Binding) :
    run settings fuel s (p ++ q) =
      precede (run settings fuel s p).events
        (run settings fuel (run settings fuel s p).session q) := by
  cases hp : Run.program settings fuel p s.machine with
  | error abort m =>
    by_cases hf : ∃ failure, abort = .failure failure
    · obtain ⟨failure, rfl⟩ := hf
      rw [run_of_failure hv hp] at h
      exact absurd ⟨failure, by simp⟩ h.2
    · rw [run_of_abort (fun failure h => hf ⟨failure, h⟩) hp] at h
      cases h.1
  | ok u m =>
    have hwhole : Run.program settings fuel (p ++ q) s.machine = Run.program settings fuel q m := by
      rw [program_append, bind_apply, hp]
    have hafter := program_after settings fuel q m.events (s.after m).machine
    have hm :
        { (s.after m).machine with events := m.events ++ (s.after m).machine.events } = m := by
      simp [after, machine]
    rw [hm, ← hwhole] at hafter
    rw [run_of_ok hp]
    cases hq : Run.program settings fuel q (s.after m).machine with
    | ok u' m' =>
      rw [hq] at hafter
      rw [run_of_ok hafter, run_of_ok hq]
      simp [precede, after]
    | error abort m' =>
      rw [hq] at hafter
      by_cases hf : ∃ failure, abort = .failure failure
      · obtain ⟨failure, rfl⟩ := hf
        rw [run_of_failure hv hafter, run_of_failure hv hq]
        simp [precede, after]
      · have habort : ∀ failure, abort ≠ .failure failure := fun failure h => hf ⟨failure, h⟩
        rw [run_of_abort habort hafter, run_of_abort habort hq]
        simp [precede, after]

/-- A program that does not complete is the end. -/
theorem run_append_of_not_completes {p : Program Binding}
    (h : ¬ (run settings fuel s p).Completes) (q : Program Binding) :
    run settings fuel s (p ++ q) = run settings fuel s p := by
  have hquiet := program_quiet settings fuel p (m := s.machine) rfl
  cases hp : Run.program settings fuel p s.machine with
  | ok u m =>
    rw [hp] at hquiet
    rw [run_of_ok hp] at h
    exact absurd ⟨rfl, fun ⟨f, hf⟩ => hquiet _ hf trivial⟩ h
  | error abort m =>
    unfold machine at hp
    unfold run
    rw [program_append, bind_apply, hp]

/-! ## Runs on other lines -/

theorem sameButLines_of_tell (s : Session) (m : Machine) (f g : Nat → Nat) :
    SameButLines (s.after (m.reline (tellLine f) #[])) (s.after (m.reline (tellLine g) #[])) := by
  unfold SameButLines reline after Machine.reline
  dsimp only
  rw [Heap.reline_comp, Heap.reline_comp]
  rfl

/-- Run on other lines, a program does the same.  If it fails, then either on a line of
its own, which changes with the others, or on another one, which does not. -/
theorem run_reline (hv : settings.verbosity = 0) (fuel : Nat) (s : Session)
    (p : Program Binding) :
    ∃ own : Bool, ∀ f, Step.Relined (if own then f else id) (run settings fuel s p)
      (run settings fuel s (relineStmts f p)) := by
  have htold := program_told settings fuel p s.machine
  have hp := htold id
  rw [relineStmts_id] at hp
  have hquiet := program_quiet settings fuel (relineStmts ownLine p)
    (m := s.machine.reline otherLine #[]) rfl
  cases ht : Run.program settings fuel (relineStmts ownLine p) (s.machine.reline otherLine #[]) with
  | ok u m =>
    simp only [ht, lastMachine] at htold hp hquiet
    refine ⟨true, fun f => ?_⟩
    rw [run_of_ok (htold f), run_of_ok hp]
    refine ⟨?_, rfl, sameButLines_of_tell s m f id⟩
    simp [Machine.reline, Event.map_reline hquiet]
  | error abort m =>
    simp only [ht, lastMachine] at htold hp hquiet
    by_cases hf : ∃ failure, abort = .failure failure
    · obtain ⟨failure, rfl⟩ := hf
      refine ⟨failure.line % 2 = 1, fun f => ?_⟩
      have hfailure : failure.reline (tellLine f) =
          (failure.reline (tellLine id)).reline (if failure.line % 2 = 1 then f else id) := by
        unfold Failure.reline tellLine
        rcases Nat.mod_two_eq_zero_or_one failure.line with heven | hodd
        · simp [heven]
        · simp [hodd]
      rw [run_of_failure hv (htold f), run_of_failure hv hp]
      refine ⟨?_, rfl, sameButLines_of_tell { s with hadFailure := true } m f id⟩
      simp [Machine.reline, Event.map_reline hquiet, Event.reline, hfailure]
    · have habort : ∀ failure, abort ≠ .failure failure := fun failure h => hf ⟨failure, h⟩
      have hsame : ∀ f, abort.reline f = abort := by
        intro f
        cases abort with
        | failure failure => exact absurd rfl (habort failure)
        | access | outOfFuel => rfl
      rw [hsame] at hp
      refine ⟨true, fun f => ?_⟩
      have hrun := htold f
      rw [hsame] at hrun
      rw [run_of_abort habort hrun, run_of_abort habort hp]
      refine ⟨?_, rfl, sameButLines_of_tell s m f id⟩
      simp [Machine.reline, Event.map_reline hquiet]

/-! ## Where a failure comes from -/

/-- The program of a text, with its names bound. -/
def programOf (source : String) : Program Binding :=
  (Resolution.ofProgram (Reading.ofSource source).program).program

/-- The failure of a text, if it has one, is on the line of a word of the text: on
whichever lines its words stand, it is on the line of the same one. -/
def BlamesText (settings : Settings) (fuel : Nat) (s : Session) (source : String) : Prop :=
  ∀ f, (run settings fuel s (programOf source)).Relined f
    (run settings fuel s (relineStmts f (programOf source)))

/-- The failure of a text, if it has one, is on the line of a word of an earlier text: on
whichever lines the words of the text stand, it stays where it is. -/
def BlamesEarlier (settings : Settings) (fuel : Nat) (s : Session) (source : String) : Prop :=
  ∀ f, (run settings fuel s (programOf source)).Relined id
    (run settings fuel s (relineStmts f (programOf source)))

/-- There is always one of them to blame. -/
theorem blames (hv : settings.verbosity = 0) (fuel : Nat) (s : Session) (source : String) :
    s.BlamesText settings fuel source ∨ s.BlamesEarlier settings fuel source := by
  obtain ⟨own, hown⟩ := run_reline hv fuel s (programOf source)
  cases own with
  | true => exact .inl hown
  | false => exact .inr hown

/-- If a text fails, only one of them is to blame. -/
theorem BlamesText.not_blamesEarlier {source : String} (h : s.BlamesText settings fuel source)
    (hfailed : (run settings fuel s (programOf source)).Failed) :
    ¬ s.BlamesEarlier settings fuel source := by
  intro hearlier
  obtain ⟨failure, hf⟩ := hfailed
  have hmoved := (h (· + 1)).events.symm.trans (hearlier (· + 1)).events
  have hline : Event.failed (failure.reline (· + 1)) = .failed (failure.reline id) :=
    List.map_inj_left.mp hmoved _ hf
  have hline := congrArg Failure.line (Event.failed.inj hline)
  exact Nat.succ_ne_self _ hline

/-! ## Texts below blank lines -/

theorem sameButLines_references {s t : Session} (h : s.SameButLines t)
    (before references : Array LocalReference) (f : Nat → Nat) :
    SameButLines (s.record (before ++ references.map (LocalReference.reline f)))
      (t.record (before ++ references)) := by
  have hrecord : ∀ (s : Session) (r : Array LocalReference), (s.record r).reline (fun _ => 0) =
      (s.reline fun _ => 0).record (r.map (LocalReference.reline fun _ => 0)) := fun _ _ => rfl
  unfold SameButLines at h ⊢
  rw [hrecord, hrecord, h, Array.map_append, Array.map_append, Array.map_map]
  rfl

/-- Below blank lines a text is answered like its program with its words further down. -/
theorem submit_blankLines (hv : settings.verbosity = 0) {source : String} (h : s.Accepts source)
    (k : Nat) {f : Nat → Nat}
    (hrun : (run settings fuel s (programOf source)).Relined f
      (run settings fuel s (relineStmts (· + k) (programOf source)))) :
    (s.submit settings fuel source).Relined f
      (s.submit settings fuel (blankLines k ++ source)) := by
  obtain ⟨herror, p, hread, hresolve⟩ := accepts_iff_reading.mp h
  have hmoved := Resolution.ofProgram_reline (· + k) p
  unfold programOf at hrun
  rw [hread] at hrun
  rw [submit_eq_run hv fuel herror hread hresolve,
    submit_eq_run hv fuel herror (Reading.ofSource_blankLines k hread)
      (by rw [hmoved, Resolution.reline, hresolve]; rfl), hmoved]
  exact ⟨hrun.events, hrun.abort, sameButLines_references hrun.session ..⟩

/-! ## Texts below each other -/

/-- A program that was read is resolved without regard to what stands below it. -/
theorem ofProgram_append_of_reading {a : String} {p : Program Unit}
    (hp : Reading.ofSource a = ⟨p, []⟩) (f : Nat → Nat) (q : Program Unit) :
    Resolution.ofProgram (p ++ relineStmts f q) =
      ⟨(Resolution.ofProgram p).program ++ relineStmts f (Resolution.ofProgram q).program,
        (Resolution.ofProgram p).diagnostics ++
          (Resolution.ofProgram q).diagnostics.map (Diagnostic.reline f),
        (Resolution.ofProgram p).references ++
          (Resolution.ofProgram q).references.map (LocalReference.reline f)⟩ := by
  have hlegal := Reading.legal a
  rw [hp] at hlegal
  exact Resolution.ofProgram_append hlegal f q

/-- A step that completes makes no report. -/
theorem not_isReport_of_completes {source : String} (h : s.Accepts source)
    (hcompletes : (s.submit settings fuel source).Completes) :
    ∀ e ∈ (s.submit settings fuel source).events, ¬ e.IsReport := by
  intro e he hreport
  cases e with
  | diagnosed d => exact (accepts_iff settings fuel).mp h (.inr ⟨d, he⟩)
  | failed failure => exact hcompletes.2 ⟨failure, he⟩
  | printed | noted => exact hreport

/-- An accepted text leaves a session that accepts what was accepted before. -/
theorem accepts_of_submit (hv : settings.verbosity = 0) {a b : String} (ha : s.Accepts a)
    (hb : s.Accepts b) : (s.submit settings fuel a).session.Accepts b :=
  ⟨((submit_allOrNothing (.inl hv) fuel a).all ((accepts_iff settings fuel).mp ha)).1, hb.2⟩

section

variable {a b : String} (ha : s.Accepts a) (hb : s.Accepts b)
include ha hb

theorem accepts_joined : s.Accepts (a ++ "\n" ++ b) := by
  obtain ⟨herror, p, hp, hpr⟩ := accepts_iff_reading.mp ha
  obtain ⟨-, q, hq, hqr⟩ := accepts_iff_reading.mp hb
  refine accepts_iff_reading.mpr ⟨herror, _, Reading.ofSource_join hp hq, ?_⟩
  rw [ofProgram_append_of_reading hp, hpr, hqr]
  rfl

/-- A text and another one below it do what the first one does, and then what the other
one does as far down. -/
theorem submit_joined_blankLines (hv : settings.verbosity = 0) (fuel : Nat) :
    let whole := s.submit settings fuel (a ++ "\n" ++ b)
    let first := s.submit settings fuel a
    let below := blankLines (newlines a.toList + 1) ++ b
    (first.Completes →
      whole = precede first.events (first.session.submit settings fuel below)) ∧
      (¬ first.Completes → first.Alike whole) := by
  intro whole first below
  obtain ⟨herror, p, hp, hpr⟩ := accepts_iff_reading.mp ha
  obtain ⟨-, q, hq, hqr⟩ := accepts_iff_reading.mp hb
  let resolved := (Resolution.ofProgram p).program
  have hfirst : first = (run settings fuel s resolved).record _ :=
    submit_eq_run hv fuel herror hp hpr
  have hresolve := ofProgram_append_of_reading hp (· + (newlines a.toList + 1)) q
  have hwhole : whole = _ := submit_eq_run hv fuel herror (Reading.ofSource_join hp hq)
    (by rw [hresolve, hpr, hqr]; rfl)
  rw [hresolve] at hwhole
  have hleft : first.session.Accepts b := accepts_of_submit hv ha hb
  have hbelow : first.session.submit settings fuel below = _ :=
    submit_eq_run hv fuel hleft.1 (Reading.ofSource_blankLines (newlines a.toList + 1) hq)
      (by rw [Resolution.ofProgram_reline, Resolution.reline, hqr]; rfl)
  rw [Resolution.ofProgram_reline] at hbelow
  constructor
  · intro h
    rw [hfirst] at h
    rw [hwhole, hbelow, run_append hv h, hfirst]
    simp only [Step.record, run_references]
    simp only [precede, Session.record, Resolution.reline, Array.append_assoc]
  · intro h
    rw [hfirst] at h
    rw [hwhole, run_append_of_not_completes h, hfirst]
    exact ⟨rfl, rfl, _, rfl⟩

end

/-- Programs can be given in pieces.  The whole is accepted if the pieces are, and does what
they do one after the other.  If the second one fails on a line of its own, the whole fails
as many lines further down as stand above it.  If it fails in a function of an earlier text,
the whole fails on the same line.  If the first one does not complete, the second one makes
no difference. -/
theorem submit_joined (hv : settings.verbosity = 0) {a b : String} (ha : s.Accepts a)
    (hb : s.Accepts b) (fuel : Nat) :
    let whole := s.submit settings fuel (a ++ "\n" ++ b)
    let first := s.submit settings fuel a
    let second := first.session.submit settings fuel b
    let above := newlines a.toList + 1
    s.Accepts (a ++ "\n" ++ b) ∧
      (first.Completes →
        first.session.BlamesText settings fuel b ∧
            (precede first.events second).Relined (· + above) whole ∨
          first.session.BlamesEarlier settings fuel b ∧
            (precede first.events second).Relined id whole) ∧
      (¬ first.Completes → first.Alike whole) := by
  intro whole first second above
  obtain ⟨hcompletes, hfails⟩ := submit_joined_blankLines ha hb hv fuel
  refine ⟨accepts_joined ha hb, fun h => ?_, hfails⟩
  have hwhole : whole = _ := hcompletes h
  have hquiet := not_isReport_of_completes ha h
  rw [hwhole]
  have hb' : first.session.Accepts b := accepts_of_submit hv ha hb
  rcases blames hv fuel first.session b with hblames | hblames
  · exact .inl ⟨hblames, (submit_blankLines hv hb' above (hblames _)).precede hquiet⟩
  · exact .inr ⟨hblames, (submit_blankLines hv hb' above (hblames _)).precede hquiet⟩

/-- A function of the first text fails when the second one calls it. -/
theorem submit_joined_negate :
    let settings : Settings := .standard 0 fun _ => 0
    let a := "fun negate(x) \x7b\n  return -x;\n\x7d\nprint negate(1);"
    let b := "print 2;\nnegate(nil);"
    let whole := Session.start.submit settings ampleFuel (a ++ "\n" ++ b)
    let first := Session.start.submit settings ampleFuel a
    let second := first.session.submit settings ampleFuel b
    let above := newlines a.toList + 1
    settings.verbosity = 0 ∧ Session.start.Accepts a ∧ Session.start.Accepts b ∧
      Session.start.Accepts (a ++ "\n" ++ b) ∧
        (first.Completes →
          first.session.BlamesText settings ampleFuel b ∧
              (precede first.events second).Relined (· + above) whole ∨
            first.session.BlamesEarlier settings ampleFuel b ∧
              (precede first.events second).Relined id whole) ∧
        (¬ first.Completes → first.Alike whole) := by
  intro settings a b
  have ha : Session.start.Accepts a := by
    unfold Session.Accepts
    decide +kernel
  have hb : Session.start.Accepts b := by
    unfold Session.Accepts
    decide +kernel
  exact ⟨rfl, ha, hb, submit_joined rfl ha hb ampleFuel⟩

end Session

end ClassScript
