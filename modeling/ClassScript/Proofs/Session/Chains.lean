import ClassScript.Proofs.Chains.Evaluation
import ClassScript.Proofs.Chains.Resolution
import ClassScript.Proofs.Chains.Syntax
import ClassScript.Proofs.Session.Loops

/-!
# Sessions without `elif`

A session may take the tokens of a text as they are, or with `else` and `if` in the place of
every `elif`.  It does the same, however much fuel the two runs have, unless one of them runs
out of it (`Session.Reshaped.takeNested`).  With twice the fuel the second one does not run
out of it alone, and with the same fuel the first one does not.

The two sessions stay related: what lives on in them are functions whose bodies are trees
of different shape.
-/

namespace ClassScript

open Run

/-- The division of a text with `else` and `if` in the place of every `elif`. -/
def Scan.elseIfs (scan : Scan) : Scan := { scan with tokens := ClassScript.elseIfs scan.tokens }

/-- Two divisions that two sessions take.  If the grammar finds no mistake, the second one has
`else` and `if` in the place of every `elif`.  A text with mistakes is the same for both. -/
inductive Scan.Nested : Scan → Scan → Prop where
  | elseIfs {scan : Scan} : (Parse.ofTokens scan.tokens).mistakes = [] →
      Nested scan scan.elseIfs
  | mistaken {scan : Scan} : (Reading.ofScan scan).diagnostics ≠ [] → Nested scan scan

/-- Two readings with the same reports.  If there are none, the second program is the first one
without `elif` branches. -/
structure Reading.Nested (r r' : Reading) : Prop where
  diagnostics : r'.diagnostics = r.diagnostics
  program : r.diagnostics = [] → r'.program = nestStmts r.program

theorem Scan.Nested.reading {scan scan' : Scan} (h : scan.Nested scan') :
    (Reading.ofScan scan).Nested (.ofScan scan') := by
  cases h with
  | elseIfs hp =>
    unfold Reading.ofScan Scan.elseIfs
    dsimp only
    rw [Parse.ofTokens_elseIfs hp, hp]
    exact ⟨rfl, fun _ => rfl⟩
  | mistaken hm => exact ⟨rfl, fun h => absurd h hm⟩

/-! ## Related sessions -/

/-- Steps that do the same, unless one of them is cut short, as far as the budget lets it. -/
inductive Step.Follows (b : Budget) (step step' : Step) : Prop where
  | agree : Step.Reshaped .chains step step' → Follows b step step'
  | left : b.left → step.abort = some .outOfFuel → Follows b step step'
  | right : b.right → step'.abort = some .outOfFuel → Follows b step step'

/-- Steps that are not cut short do the same. -/
theorem Step.Follows.reshaped {b : Budget} {step step' : Step} (h : Step.Follows b step step')
    (hleft : b.left → step.abort ≠ some .outOfFuel)
    (hright : b.right → step'.abort ≠ some .outOfFuel) : Step.Reshaped .chains step step' := by
  cases h with
  | agree h => exact h
  | left hl ha => exact absurd ha (hleft hl)
  | right hr ha => exact absurd ha (hright hr)

theorem Step.Follows.precede {b : Budget} {step step' : Step} (h : Step.Follows b step step')
    (events : List Event) :
    Step.Follows b (Session.precede events step) (Session.precede events step') := by
  cases h with
  | agree h => exact .agree (h.precede rfl)
  | left hl ha => exact .left hl ha
  | right hr ha => exact .right hr ha

theorem Session.abort_runBy {σ : Semantics} {settings : Settings} {fuel : Nat} {s : Session}
    {p : Program Binding} {m : Machine}
    (h : σ.run settings fuel p ⟨s.heap, s.readings, #[]⟩ = .error .outOfFuel m) :
    (s.runBy σ settings fuel p).abort = some .outOfFuel := by
  unfold Session.runBy
  rw [h]

namespace Session.Reshaped

variable {settings : Settings} (hb : settings.lookup = .bound) (hv : settings.verbosity < 3)
  {b : Budget} (hn : b.Nested) {fuel fuel' : Nat} (ha : b.allows fuel fuel') {w : Pairing}
  {s t : Session}
include hb hv hn ha

theorem runNested (h : Reshaped .chains w s t) {p p' : Program Binding}
    (hp : StmtsReshaped .chains [] p p') :
    Step.Follows b (s.runBy .standard settings fuel p) (t.runBy .standard settings fuel' p') := by
  have hrun := program_follows hb hv hn ha h.heap.globals hp ⟨s.heap, s.readings, #[]⟩
    ⟨t.heap, t.readings, #[]⟩ ⟨h.heap, h.readings, rfl⟩
  generalize hr : program settings fuel p _ = r, hr' : program settings fuel' p' _ = r' at hrun
  cases hrun with
  | agree hagree =>
    subst hr hr'
    exact .agree (h.runBy hagree)
  | left hl => exact .left hl (abort_runBy hr)
  | right hright => exact .right hright (abort_runBy hr')

theorem resolveAndRunNested (h : Reshaped .chains w s t) (p : Program Unit) :
    Step.Follows b (s.resolveAndRunBy .standard settings fuel p)
      (t.resolveAndRunBy .standard settings fuel' (nestStmts p)) := by
  have hprogram : StmtsReshaped .chains [] (Resolution.ofProgram p).program
      (nestStmts (Resolution.ofProgram p).program) :=
    reshaped_nestStmts (List.forall_mem_nil _) _
  have hsize : (t.references ++ (Resolution.ofProgram p).references).size =
      (s.references ++ (Resolution.ofProgram p).references).size := by
    rw [Array.size_append, Array.size_append, h.references]
  have hs : Reshaped .chains w
      { s with references := s.references ++ (Resolution.ofProgram p).references }
      { t with references := t.references ++ (Resolution.ofProgram p).references } :=
    ⟨h.heap, h.readings, hsize, h.hadError, h.hadFailure, h.logOpen⟩
  have hrun := hs.runNested hb hv hn ha hprogram
  unfold resolveAndRunBy
  unfold Semantics.standard at hrun ⊢
  dsimp only at hrun ⊢
  rw [Resolution.ofProgram_nestStmts, hsize]
  dsimp only
  split
  · exact hrun.precede _
  · exact .agree ⟨rfl, rfl, w, h.heap, h.readings, hsize, rfl, h.hadFailure, h.logOpen⟩

/-- A session takes a reading as the related one takes it without `elif` branches. -/
theorem takeNested (h : Reshaped .chains w s t) {r r' : Reading} (hr : r.Nested r') :
    Step.Follows b (s.take .standard settings fuel r) (t.take .standard settings fuel' r') := by
  have hs (mark : Bool) :
      Reshaped .chains w { s with hadError := mark } { t with hadError := mark } :=
    ⟨h.heap, h.readings, h.references, rfl, h.hadFailure, h.logOpen⟩
  unfold Session.take
  dsimp only
  rw [hr.diagnostics, h.hadError]
  split
  · exact .agree ⟨rfl, rfl, w, hs _⟩
  · next hnone =>
    have hempty : r.diagnostics = [] := by
      cases hd : r.diagnostics with
      | nil => rfl
      | cons d rest => simp [hd] at hnone
    rw [hr.program hempty, length_nestStmts]
    exact ((hs _).resolveAndRunNested hb hv hn ha r.program).precede _

end Session.Reshaped

namespace Session

/-- Two sessions that took the same texts, the second one with `else` and `if` in the place of
every `elif`.  Neither of them ran out of fuel. -/
inductive Alongside (settings : Settings) : Session → Session → Prop where
  | start : Alongside settings .start .start
  | take {s t : Session} {scan scan' : Scan} (fuel fuel' : Nat) : Alongside settings s t →
      scan.Nested scan' →
      (s.take .standard settings fuel (.ofScan scan)).abort ≠ some .outOfFuel →
      (t.take .standard settings fuel' (.ofScan scan')).abort ≠ some .outOfFuel →
      Alongside settings (s.take .standard settings fuel (.ofScan scan)).session
        (t.take .standard settings fuel' (.ofScan scan')).session
  | forgive {s t : Session} : Alongside settings s t → Alongside settings s.forgive t.forgive
  | closeLog {s t : Session} : Alongside settings s t → Alongside settings s.closeLog t.closeLog

theorem Alongside.reshaped {settings : Settings} (hb : settings.lookup = .bound)
    (hv : settings.verbosity < 3) {s t : Session} (h : Alongside settings s t) :
    ∃ w, Session.Reshaped .chains w s t := by
  induction h with
  | start => exact ⟨_, Heap.reshaped_initial _, rfl, rfl, rfl, rfl, rfl⟩
  | take fuel fuel' _ hr hends hends' ih =>
    obtain ⟨w, hw⟩ := ih
    exact ((hw.takeNested hb hv Budget.nested_any trivial hr.reading).reshaped
      (fun _ => hends) fun _ => hends').session
  | forgive _ ih =>
    obtain ⟨w, hw⟩ := ih
    exact ⟨w, hw.heap, hw.readings, hw.references, rfl, hw.hadFailure, hw.logOpen⟩
  | closeLog _ ih =>
    obtain ⟨w, hw⟩ := ih
    exact ⟨w, hw.heap, hw.readings, hw.references, hw.hadError, hw.hadFailure, rfl⟩

/-- What a chain of choices means.

* Tokens with `else` and `if` in the place of every `elif` are read without a mistake if the
  tokens are.  What is read then is the program in which each further branch is a choice of
  its own, and it breaks the rules for names in the same places.
* A session that takes the tokens so prints the same, reports the same mistakes and the same
  failure, is abandoned for the same reason, and leaves globals that show the same, and the
  two sessions stay alike whatever they take next.  The amounts of fuel may be any with which
  neither runs out of it.  The first session has as much as it needs whenever the second one
  has no more, and the second one whenever it has twice the fuel of the first one.
* A choice evaluates its conditions in order, each one once, until one holds, and then runs
  its branch, or the last branch if none holds, and nothing else. -/
theorem elif_elseIf {settings : Settings} (hb : settings.lookup = .bound)
    (hv : settings.verbosity < 3) :
    (∀ tokens : List Token, (Parse.ofTokens tokens).mistakes = [] →
      (Parse.ofTokens (elseIfs tokens)).mistakes = [] ∧
      (Parse.ofTokens (elseIfs tokens)).program = nestStmts (Parse.ofTokens tokens).program ∧
      (Resolution.ofProgram (Parse.ofTokens (elseIfs tokens)).program).diagnostics =
        (Resolution.ofProgram (Parse.ofTokens tokens).program).diagnostics) ∧
    (∀ s t : Session, Alongside settings s t → ∀ (fuel fuel' : Nat) (scan scan' : Scan),
      scan.Nested scan' →
      let step := s.take .standard settings fuel (.ofScan scan)
      let step' := t.take .standard settings fuel' (.ofScan scan')
      (step.abort ≠ some .outOfFuel → step'.abort ≠ some .outOfFuel →
        step.DoesSame step' ∧ step'.abort = step.abort) ∧
      (2 * fuel ≤ fuel' → step.abort ≠ some .outOfFuel → step'.abort ≠ some .outOfFuel) ∧
      (fuel' ≤ fuel → step'.abort ≠ some .outOfFuel → step.abort ≠ some .outOfFuel)) ∧
    ∀ (fuel depth : Nat) (env : EnvId) (condition : Expr Binding) (thenBranch : Stmt Binding)
      (elifs : List (Elif Binding)) (last : Option (Stmt Binding)) (m : Machine),
      ∃ passed rest fuel' m', .mk condition thenBranch :: elifs = passed ++ rest ∧
        Passes settings depth env passed fuel m fuel' m' ∧
        Chooses settings depth env rest last fuel' m'
          (execute settings fuel depth env (.ifStmt condition thenBranch elifs last) m) := by
  refine ⟨fun tokens h => ?_, fun s t h fuel fuel' scan scan' hr => ?_,
    fun fuel depth env condition thenBranch elifs last m => ?_⟩
  · rw [Parse.ofTokens_elseIfs h]
    refine ⟨rfl, rfl, ?_⟩
    dsimp only
    rw [Resolution.ofProgram_nestStmts]
  · obtain ⟨w, hw⟩ := h.reshaped hb hv
    refine ⟨fun hends hends' => ?_, fun hle hends => ?_, fun hle hends' => ?_⟩
    · have hstep := (hw.takeNested hb hv Budget.nested_any trivial hr.reading).reshaped
        (fun _ => hends) fun _ => hends'
      exact ⟨hstep.doesSame, hstep.abort⟩
    · have hstep := (hw.takeNested hb hv Budget.nested_double hle hr.reading).reshaped
        (fun _ => hends) False.elim
      rwa [hstep.abort]
    · have hstep := (hw.takeNested hb hv Budget.nested_atLeast hle hr.reading).reshaped
        False.elim fun _ => hends'
      rwa [← hstep.abort]
  · rw [execute_ifStmt hv]
    exact executeElifs_passes _ last fuel m

set_option maxRecDepth 4000 in
/-- A choice inside of a branch takes the `elif` and the `else` behind it. -/
theorem elif_elseIf_inner :
    let settings : Settings := .standard 0 fun _ => 0
    let text := "fun f(x) \x7b if (x) if (x == \"a\") return; elif (x == \"b\") return x; " ++
      "else return y; \x7d print f(\"b\"); print f(nil); f(f);"
    let scan := Scan.ofSource text
    settings.lookup = .bound ∧ settings.verbosity < 3 ∧
      (Parse.ofTokens scan.tokens).mistakes = [] ∧
      (start.submit settings 20 text).DoesSame
        (start.take .standard settings 40 (.ofScan scan.elseIfs)) ∧
      (start.submit settings 20 text).events =
        [.printed "b", .printed "nil", .failed ⟨.undefinedVariable "y", 1⟩] := by
  intro settings text scan
  have hrun : (Parse.ofTokens scan.tokens).mistakes = [] ∧
      (start.submit settings 20 text).abort ≠ some .outOfFuel ∧
      (start.submit settings 20 text).events =
        [.printed "b", .printed "nil", .failed ⟨.undefinedVariable "y", 1⟩] := by
    decide +kernel
  obtain ⟨hparse, hends, hevents⟩ := hrun
  obtain ⟨-, hsame, -⟩ := @elif_elseIf settings rfl (by decide)
  obtain ⟨hstep, hends', -⟩ := hsame start start .start 20 40 scan _ (.elseIfs hparse)
  exact ⟨rfl, by decide, hparse, (hstep hends (hends' le_rfl hends)).1, hevents⟩

end Session

end ClassScript
