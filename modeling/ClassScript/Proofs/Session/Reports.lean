import ClassScript.Proofs.Session.History

/-!
# Reports of a step

A step either runs its program or makes reports of mistakes only.

A text that is not accepted changes nothing of its session but the mark of mistakes and
the record of references (`Session.submit_of_rejected`).  An accepted one makes no report
of a mistake, and the report of its failure, if there is one, comes last
(`Session.submit_of_accepted`).  Reports tell the two apart (`Session.accepts_iff`), so
what a step leaves behind can be read off them (`Session.submit_allOrNothing`).
-/

namespace ClassScript

namespace Step

/-- Whether a step reports a mistake. -/
def Diagnosed (step : Step) : Prop := ∃ d, Event.diagnosed d ∈ step.events

instance (step : Step) : Decidable step.Diagnosed :=
  decidable_of_iff (step.events.any fun e => match e with | .diagnosed _ => true | _ => false) <| by
    rw [List.any_eq_true]
    constructor
    · rintro ⟨e, he, hd⟩
      cases e with
      | diagnosed d => exact ⟨d, he⟩
      | _ => cases hd
    · rintro ⟨d, hd⟩
      exact ⟨_, hd, rfl⟩

/-- Whether a step reports a failure. -/
def Failed (step : Step) : Prop := ∃ f, Event.failed f ∈ step.events

end Step

namespace Run

/-- A running program adds events, and none of them is a report. -/
def AddsProgress (m m' : Machine) : Prop :=
  ∃ events, m'.events.toList = m.events.toList ++ events ∧ ∀ e ∈ events, ¬ e.IsReport

theorem addsProgress_of_eq {m m' : Machine} (h : m'.events = m.events) : AddsProgress m m' :=
  ⟨[], by rw [h, List.append_nil], nofun⟩

theorem addsProgress_stepLaw : StepLaw AddsProgress where
  refl _ := addsProgress_of_eq rfl
  trans := by
    rintro m₁ m₂ m₃ ⟨es, h, hes⟩ ⟨es', h', hes'⟩
    refine ⟨es ++ es', by rw [h', h, List.append_assoc], fun e he => ?_⟩
    rcases List.mem_append.mp he with he | he
    · exact hes e he
    · exact hes' e he
  event m e he := ⟨[e], by simp, fun e' he' => List.mem_singleton.mp he' ▸ he⟩
  clock _ := addsProgress_of_eq rfl
  pushEnv _ _ _ := addsProgress_of_eq rfl
  define _ _ _ _ := addsProgress_of_eq rfl
  pushObject _ := addsProgress_of_eq rfl
  setField _ _ _ _ := addsProgress_of_eq rfl
  takeId _ := addsProgress_of_eq rfl

/-- A program on its own makes no report. -/
theorem program_quiet (settings : Settings) (fuel : Nat) (p : Program Binding) {m : Machine}
    (hm : m.events = #[]) :
    ∀ e ∈ (lastMachine (program settings fuel p m)).events.toList, ¬ e.IsReport := by
  obtain ⟨progress, hevents, hreports⟩ := addsProgress_stepLaw.program settings fuel p m
  rw [hevents, hm]
  simpa using hreports

end Run

open Run

/-- Notes go to an open log. -/
theorem Event.output_of_forall {logOpen : Bool} {events : List Event}
    (h : ∀ e ∈ events, e.outputText logOpen = "") : Event.output logOpen events = "" := by
  unfold Event.output
  induction events with
  | nil => rfl
  | cons e rest ih =>
    rw [List.map_cons, h e (List.mem_cons_self ..), String.join_cons,
      ih fun e he => h e (List.mem_cons_of_mem _ he)]
    rfl

namespace Session

variable {settings : Settings} {fuel : Nat} {s : Session} {source : String}

theorem mem_note {level : Nat} {text : String} {e : Event} (he : e ∈ note settings level text) :
    1 ≤ level → settings.verbosity ≠ 0 ∧ ∃ line, e = .noted line := by
  intro hlevel
  unfold note at he
  split at he
  · exact ⟨by omega, text, List.mem_singleton.mp he⟩
  · cases he

/-- Events that are notes, and none if nothing is noted. -/
def OnlyNotes (settings : Settings) (events : List Event) : Prop :=
  ∀ e ∈ events, settings.verbosity ≠ 0 ∧ ∃ line, e = .noted line

theorem onlyNotes_note {level : Nat} (hlevel : 1 ≤ level) (text : String) :
    OnlyNotes settings (note settings level text) :=
  fun _ he => mem_note he hlevel

theorem OnlyNotes.append {events more : List Event} (h : OnlyNotes settings events)
    (h' : OnlyNotes settings more) : OnlyNotes settings (events ++ more) := by
  intro e he
  rcases List.mem_append.mp he with he | he
  · exact h e he
  · exact h' e he

theorem OnlyNotes.not_isReport {events : List Event} (h : OnlyNotes settings events) :
    ∀ e ∈ events, ¬ e.IsReport := by
  intro e he
  obtain ⟨-, line, rfl⟩ := h e he
  exact id

theorem OnlyNotes.eq_nil {events : List Event} (h : OnlyNotes settings events)
    (hv : settings.verbosity = 0) : events = [] :=
  List.eq_nil_iff_forall_not_mem.mpr fun e he => (h e he).1 hv

/-- A text that is not accepted is answered with reports of mistakes. -/
theorem submit_of_rejected (settings : Settings) (fuel : Nat) (h : ¬ s.Accepts source) :
    ∃ notes diagnostics references,
      s.submit settings fuel source =
        ⟨{ s with references, hadError := true }, notes ++ diagnostics.map .diagnosed, none⟩ ∧
      OnlyNotes settings notes ∧ (s.hadError = true ∨ diagnostics ≠ []) := by
  rw [submit_eq_of_not_accepts settings fuel h]
  split
  · rename_i hread
    exact ⟨_, _, _, rfl, onlyNotes_note (Nat.le_refl 1) _,
      .inr fun hresolve => h ⟨hread.1, hread.2, hresolve⟩⟩
  · rename_i hread
    refine ⟨[], _, s.references, rfl, nofun, ?_⟩
    by_contra hnone
    exact hread ⟨by simpa using fun herror => hnone (.inl herror),
      by_contra fun hne => hnone (.inr hne)⟩

theorem onlyNotes_acceptedNotes (s : Session) (source : String) :
    OnlyNotes settings (s.acceptedNotes settings source) :=
  (onlyNotes_note (Nat.le_refl 1) _).append (onlyNotes_note (Nat.le_refl 1) _)

/-- A text that is accepted runs, after notes. -/
theorem submit_of_accepted (settings : Settings) (fuel : Nat) (h : s.Accepts source) :
    ∃ notes references,
      s.submit settings fuel source =
        precede notes (run settings fuel { s with references }
          (Resolution.ofProgram (Reading.ofSource source).program).program) ∧
      references = s.references ++
        (Resolution.ofProgram (Reading.ofSource source).program).references ∧
      OnlyNotes settings notes :=
  ⟨_, _, submit_eq_of_accepts settings fuel h, rfl, onlyNotes_acceptedNotes s source⟩

/-! ## How a run ends -/

/-- The session with what a machine leaves behind. -/
def after (s : Session) (m : Machine) : Session := { s with heap := m.heap, readings := m.readings }

/-- The machine with which a program of a session starts. -/
def machine (s : Session) : Machine := ⟨s.heap, s.readings, #[]⟩

section

variable {p : Program Binding} {m : Machine}

theorem run_of_ok {u : Unit} (h : Run.program settings fuel p s.machine = .ok u m) :
    run settings fuel s p = ⟨s.after m, m.events.toList, none⟩ := by
  unfold machine at h
  unfold run
  rw [h]
  rfl

/-- A run that fails reports it, behind a note. -/
theorem run_of_failed {f : Failure}
    (h : Run.program settings fuel p s.machine = .error (.failure f) m) :
    run settings fuel s p =
      ⟨{ s with hadFailure := true }.after m,
        m.events.toList ++ note settings 1 ("runtime error: " ++ f.summary) ++ [.failed f],
        none⟩ := by
  unfold machine at h
  unfold run
  rw [h]
  rfl

theorem run_of_abort {abort : Abort} (habort : ∀ failure, abort ≠ .failure failure)
    (h : Run.program settings fuel p s.machine = .error abort m) :
    run settings fuel s p = ⟨s.after m, m.events.toList, some abort⟩ := by
  unfold machine at h
  unfold run
  rw [h]
  cases abort with
  | failure failure => exact absurd rfl (habort failure)
  | access e => rfl
  | outOfFuel => rfl

end

/-- What a run adds ends with the report of its failure, if there is one. -/
theorem run_reports (settings : Settings) (fuel : Nat) (s : Session) (program : Program Binding) :
    (run settings fuel s program).session.hadError = s.hadError ∧
      ∃ progress, (∀ e ∈ progress, ¬ e.IsReport) ∧
        ((run settings fuel s program).events = progress ∧
            (run settings fuel s program).session.hadFailure = s.hadFailure ∨
          ∃ f, (run settings fuel s program).events = progress ++ [.failed f] ∧
            (run settings fuel s program).session.hadFailure = true) := by
  have hprogress := program_quiet settings fuel program (m := s.machine) rfl
  cases hrun : Run.program settings fuel program s.machine with
  | ok u m =>
    rw [hrun] at hprogress
    rw [run_of_ok hrun]
    exact ⟨rfl, _, hprogress, .inl ⟨rfl, rfl⟩⟩
  | error abort m =>
    rw [hrun] at hprogress
    by_cases hf : ∃ f, abort = .failure f
    · obtain ⟨f, rfl⟩ := hf
      have hnote : OnlyNotes settings (note settings 1 ("runtime error: " ++ f.summary)) :=
        onlyNotes_note (Nat.le_refl 1) _
      rw [run_of_failed hrun]
      refine ⟨rfl, _, fun e he => ?_, .inr ⟨f, rfl, rfl⟩⟩
      rcases List.mem_append.mp he with he | he
      · exact hprogress e he
      · exact hnote.not_isReport e he
    · rw [run_of_abort (fun f h => hf ⟨f, h⟩) hrun]
      exact ⟨rfl, _, hprogress, .inl ⟨rfl, rfl⟩⟩

/-- A text is accepted just if there is no mark and no report of a mistake. -/
theorem accepts_iff (settings : Settings) (fuel : Nat) :
    s.Accepts source ↔
      ¬ (s.hadError = true ∨ (s.submit settings fuel source).Diagnosed) := by
  constructor
  · rintro h (herror | ⟨d, hd⟩)
    · rw [h.1] at herror
      cases herror
    · obtain ⟨notes, references, heq, -, hnotes⟩ := submit_of_accepted settings fuel h
      obtain ⟨-, progress, hprogress, hrun⟩ := run_reports settings fuel { s with references }
        (Resolution.ofProgram (Reading.ofSource source).program).program
      rw [heq] at hd
      rcases List.mem_append.mp hd with hd | hd
      · exact hnotes.not_isReport _ hd trivial
      · rcases hrun with ⟨hevents, -⟩ | ⟨f, hevents, -⟩
        · rw [hevents] at hd
          exact hprogress _ hd trivial
        · rw [hevents] at hd
          rcases List.mem_append.mp hd with hd | hd
          · exact hprogress _ hd trivial
          · cases List.mem_singleton.mp hd
  · intro h
    by_contra hrejected
    obtain ⟨notes, diagnostics, references, heq, -, hmark⟩ :=
      submit_of_rejected settings fuel hrejected
    refine h (hmark.imp_right fun hne => ?_)
    obtain ⟨d, rest, rfl⟩ := List.exists_cons_of_ne_nil hne
    exact ⟨d, by simp [heq]⟩

end Session

/-! ## All or nothing -/

/-- A step either makes reports of mistakes and nothing else, or runs its program and
reports its failure at the end, if it has one. -/
structure Step.AllOrNothing (before : Session) (source : String) (step : Step) : Prop where
  /-- There is a mark or a report of a mistake just if the text is not accepted: if there was a
  mark before, or reading or resolution finds a mistake. -/
  rejected : before.hadError = true ∨ step.Diagnosed ↔ ¬ before.Accepts source
  /-- With a mark or a report of a mistake, nothing runs. -/
  nothing : before.hadError = true ∨ step.Diagnosed →
    Event.output before.logOpen step.events = "" ∧ step.session.heap = before.heap ∧
      ¬ step.Failed ∧ step.session.hadFailure = before.hadFailure ∧
      step.session.hadError = true
  /-- Without one there is no mark afterwards, and no report but a last one. -/
  all : ¬ (before.hadError = true ∨ step.Diagnosed) →
    step.session.hadError = false ∧
      (∃ progress, (∀ e ∈ progress, ¬ e.IsReport) ∧
        (step.events = progress ∨ ∃ f, step.events = progress ++ [.failed f])) ∧
      (step.session.hadFailure = true ↔ before.hadFailure = true ∨ step.Failed)

/-- Every step is all or nothing. -/
theorem Session.submit_allOrNothing {settings : Settings} {s : Session}
    (hlog : settings.verbosity = 0 ∨ s.logOpen = true) (fuel : Nat) (source : String) :
    Step.AllOrNothing s source (s.submit settings fuel source) := by
  refine ⟨by rw [accepts_iff settings fuel, not_not], ?_, ?_⟩
  · intro hrejected
    have hrejected : ¬ s.Accepts source := fun h => (accepts_iff settings fuel).mp h hrejected
    obtain ⟨notes, diagnostics, references, heq, hnotes, -⟩ :=
      submit_of_rejected settings fuel hrejected
    rw [heq]
    refine ⟨Event.output_of_forall fun e he => ?_, rfl, ?_, rfl, rfl⟩
    · rcases List.mem_append.mp he with he | he
      · obtain ⟨hv, line, rfl⟩ := hnotes e he
        rcases hlog with hlog | hlog
        · exact absurd hlog hv
        · simp [Event.outputText, hlog]
      · obtain ⟨d, -, rfl⟩ := List.mem_map.mp he
        rfl
    · rintro ⟨f, hf⟩
      rcases List.mem_append.mp hf with hf | hf
      · exact hnotes.not_isReport _ hf trivial
      · obtain ⟨d, -, hd⟩ := List.mem_map.mp hf
        cases hd
  · intro haccepted
    have haccepts := (accepts_iff settings fuel).mpr haccepted
    obtain ⟨notes, references, heq, -, hnotes⟩ :=
      submit_of_accepted settings fuel haccepts
    obtain ⟨herror, progress, hprogress, hrun⟩ := run_reports settings fuel { s with references }
      (Resolution.ofProgram (Reading.ofSource source).program).program
    have hreports : ∀ e ∈ notes ++ progress, ¬ e.IsReport := by
      intro e he
      rcases List.mem_append.mp he with he | he
      · exact hnotes.not_isReport e he
      · exact hprogress e he
    rw [heq]
    unfold precede
    refine ⟨herror.trans haccepts.1, ⟨notes ++ progress, hreports, ?_⟩, ?_⟩
    · rcases hrun with ⟨hevents, -⟩ | ⟨f, hevents, -⟩
      · exact .inl (by rw [hevents])
      · exact .inr ⟨f, by rw [hevents, List.append_assoc]⟩
    · rcases hrun with ⟨hevents, hfailure⟩ | ⟨f, hevents, hfailure⟩
      · dsimp only
        rw [hfailure]
        refine ⟨.inl, fun h => h.resolve_right ?_⟩
        rintro ⟨f, hf⟩
        rw [hevents] at hf
        exact hreports _ hf trivial
      · dsimp only
        exact ⟨fun _ => .inr ⟨f, by simp [hevents]⟩, fun _ => hfailure⟩

end ClassScript
