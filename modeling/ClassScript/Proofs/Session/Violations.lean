import ClassScript.Proofs.Lines.Resolution
import ClassScript.Proofs.Scope.Violations
import ClassScript.Proofs.Session.Reports

/-!
# Violations of a text

A session reports exactly the violations of a text that is read without mistakes, and
without one it runs the text (`Session.reports_violations`).  The rules that are broken,
where, and in which order are a matter of the program alone: no session, no settings and no
earlier text come into it.
-/

namespace ClassScript

open Resolution

/-- The mistake that an event reports. -/
def Event.diagnostic? : Event → Option Diagnostic
  | .diagnosed d => some d
  | _ => none

/-- The mistakes that a step reports, in order. -/
def Step.diagnostics (step : Step) : List Diagnostic := step.events.filterMap Event.diagnostic?

theorem Event.filterMap_diagnostic?_eq_nil {events : List Event}
    (h : ∀ e ∈ events, ¬ e.IsReport) : events.filterMap Event.diagnostic? = [] :=
  List.filterMap_eq_nil_iff.mpr fun e he => by
    cases e with
    | diagnosed d => exact absurd trivial (h _ he)
    | _ => rfl

/-- Resolution tells the violations of a program, in the order of their positions, and
leaves no scope open.  What comes after the program is checked as on its own. -/
structure Violation.Reported (p : Program Unit) (vs : List Violation) : Prop where
  sorted : vs.Pairwise fun v w => v.position < w.position
  mem_iff : ∀ v, v ∈ vs ↔ v.Occurs p
  diagnostics : (ofProgram p).diagnostics = vs.map Violation.report
  scopes : (resolveStmts ⟨.topLevel, .none⟩ p ⟨[], [], #[]⟩).2.scopes = []
  restored : ∀ q, (ofProgram (p ++ q)).diagnostics =
    vs.map Violation.report ++ (ofProgram q).diagnostics

/-- The violations of a legal program are reported. -/
theorem Violation.reported {p : Program Unit} (hp : legalStmts p) : ∃ vs, Reported p vs := by
  obtain ⟨vs, hvs, hds⟩ := ofProgram_accountedFor hp
  refine ⟨vs, hvs.sorted, hvs.mem_iff, hds, scopes_resolveStmts _ hp rfl, fun q => ?_⟩
  have happend := congrArg Resolution.diagnostics (ofProgram_append hp id q)
  have hid : Diagnostic.reline id = id := rfl
  rw [← hds]
  simpa [relineStmts_id, hid] using happend

namespace Session

variable {settings : Settings} {fuel : Nat} {s : Session} {source : String}

/-- An accepted text makes no report of a mistake. -/
theorem diagnostics_of_accepted (settings : Settings) (fuel : Nat) (h : s.Accepts source) :
    (s.submit settings fuel source).diagnostics = [] ∧
      (s.submit settings fuel source).session.hadError = false := by
  obtain ⟨notes, references, heq, -, hnotes⟩ := submit_of_accepted settings fuel h
  obtain ⟨herror, progress, hprogress, hrun⟩ := run_reports settings fuel { s with references }
    (Resolution.ofProgram (Reading.ofSource source).program).program
  rw [heq]
  refine ⟨?_, herror.trans h.1⟩
  have hquiet := Event.filterMap_diagnostic?_eq_nil hnotes.not_isReport
  have hquiet' := Event.filterMap_diagnostic?_eq_nil hprogress
  rcases hrun with ⟨hevents, -⟩ | ⟨f, hevents, -⟩
  · simp [Step.diagnostics, precede, hevents, hquiet, hquiet']
  · simp [Step.diagnostics, precede, hevents, hquiet, hquiet', Event.diagnostic?]

/-- The mistakes of a text that is read without any are those that resolution finds. -/
theorem diagnostics_of_read (settings : Settings) (fuel : Nat) (hs : s.hadError = false)
    (hread : (Reading.ofSource source).diagnostics = []) :
    (s.submit settings fuel source).diagnostics =
        (ofProgram (Reading.ofSource source).program).diagnostics ∧
      ((s.submit settings fuel source).session.hadError = false ↔
        (ofProgram (Reading.ofSource source).program).diagnostics = []) := by
  by_cases hresolve : (ofProgram (Reading.ofSource source).program).diagnostics = []
  · obtain ⟨hds, herror⟩ := diagnostics_of_accepted settings fuel ⟨hs, hread, hresolve⟩
    exact ⟨hds.trans hresolve.symm, iff_of_true herror hresolve⟩
  · have hnotes : ∀ text, (note settings 1 text).filterMap Event.diagnostic? = [] := fun text =>
      Event.filterMap_diagnostic?_eq_nil (onlyNotes_note (Nat.le_refl 1) text).not_isReport
    have hreports : ∀ ds : List Diagnostic,
        (ds.map Event.diagnosed).filterMap Event.diagnostic? = ds := fun ds => by
      rw [List.filterMap_map]
      exact List.filterMap_some
    unfold submit resolveAndRun precede
    simp [Step.diagnostics, hs, hread, hresolve, hnotes, hreports]

/-- A session reports the violations of a text that is read without mistakes, each of them
once and in order.  Without one it makes no mark of mistakes. -/
theorem reports_violations (hread : (Reading.ofSource source).diagnostics = []) :
    ∃ vs, Violation.Reported (Reading.ofSource source).program vs ∧
      ∀ (settings : Settings) (fuel : Nat) (s : Session), s.hadError = false →
        (s.submit settings fuel source).diagnostics = vs.map Violation.report ∧
          ((s.submit settings fuel source).session.hadError = false ↔
            ∀ v : Violation, ¬ v.Occurs (Reading.ofSource source).program) := by
  obtain ⟨vs, hvs⟩ := Violation.reported (Reading.legal source)
  refine ⟨vs, hvs, fun settings fuel s hs => ?_⟩
  obtain ⟨hds, herror⟩ := diagnostics_of_read settings fuel hs hread
  refine ⟨hds.trans hvs.diagnostics, herror.trans ?_⟩
  rw [hvs.diagnostics, List.map_eq_nil_iff, List.eq_nil_iff_forall_not_mem]
  exact forall_congr' fun v => not_congr (hvs.mem_iff v)

/-- A class that inherits from itself, whose initializer returns the value of a variable that
is read in its own initializer. -/
theorem reports_violations_class :
    let source := "class A < A \x7b init() \x7b var x = x; return x; \x7d \x7d"
    (Reading.ofSource source).diagnostics = [] ∧
      ∃ vs, Violation.Reported (Reading.ofSource source).program vs ∧
        ∀ (settings : Settings) (fuel : Nat) (s : Session), s.hadError = false →
          (s.submit settings fuel source).diagnostics = vs.map Violation.report ∧
            ((s.submit settings fuel source).session.hadError = false ↔
              ∀ v : Violation, ¬ v.Occurs (Reading.ofSource source).program) := by
  intro source
  have hread : (Reading.ofSource source).diagnostics = [] := by decide +kernel
  exact ⟨hread, reports_violations hread⟩

end Session

end ClassScript
