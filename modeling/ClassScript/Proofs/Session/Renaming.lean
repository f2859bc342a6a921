import ClassScript.Proofs.Renaming.Evaluation
import ClassScript.Proofs.Renaming.Resolution
import ClassScript.Proofs.Session.Alike

/-!
# Texts under another name for a local variable

A parameter or variable of a local scope may get any name that does not occur in its
program.  If the program is accepted, then so is the respelled one.  Its references are
recorded with the same distances, and in every session it does the same
(`Session.does_same_of_respell`).

The two programs start with the same heap.  All that lives on in a session is related to
itself, under the names that it has (`History.heap_renamed`), so the runs of the programs
start with related machines.
-/

namespace ClassScript

open Resolution Run

/-- What a program shows of the globals: their names, and the types and texts of their values. -/
def Session.shownGlobals (s : Session) : List (String × String × String) :=
  s.globals.map fun entry => (entry.1, entry.2.typeName, entry.2.text)

/-- What can be seen of two steps is the same. -/
structure Step.DoesSame (step step' : Step) : Prop where
  /-- They print the same, and report the same mistakes and the same failure. -/
  events : step'.events = step.events
  hadError : step'.session.hadError = step.session.hadError
  hadFailure : step'.session.hadFailure = step.session.hadFailure
  globals : step'.session.shownGlobals = step.session.shownGlobals
  /-- Both are abandoned without a report, or neither is. -/
  abandoned : step'.abort = none ↔ step.abort = none
  /-- Both are abandoned for a local variable that is not set, or neither is. -/
  unset : (∃ x, step'.abort = some (.access (.unset x))) ↔
    ∃ x, step.abort = some (.access (.unset x))
  /-- Both run out of fuel, or neither does. -/
  outOfFuel : step'.abort = some .outOfFuel ↔ step.abort = some .outOfFuel

theorem Step.DoesSame.refl (step : Step) : step.DoesSame step :=
  ⟨rfl, rfl, rfl, rfl, Iff.rfl, Iff.rfl, Iff.rfl⟩

/-! ## Heaps of sessions -/

theorem Heap.renamed_initial : Heap.Renamed [⟨none, .keep⟩] .initial .initial := by
  refine ⟨rfl, rfl, fun env frame hf => ?_, fun env frame hf => ?_, .outermost rfl, rfl,
    fun object x => ?_, rfl⟩
  · obtain ⟨i⟩ := env
    cases i with
    | zero =>
      cases hf
      exact ⟨rfl, rfl⟩
    | succ i => cases hf
  · obtain ⟨i⟩ := env
    cases i with
    | zero =>
      cases hf
      exact .single rfl (.native 0 .clock)
    | succ i => cases hf
  · rw [Heap.field?_initial]
    exact .none

/-- The globals of related heaps have the same names and show the same. -/
theorem Heap.Renamed.map_globals {w : World} {h h' : Heap} (hh : Heap.Renamed w h h') :
    (h'.slots .globals).entries.map (fun entry => (entry.1, entry.2.typeName, entry.2.text)) =
      (h.slots .globals).entries.map fun entry => (entry.1, entry.2.typeName, entry.2.text) := by
  obtain ⟨parent, hf⟩ := hh.globals.frame
  exact (hh.slots .globals _ hf).map_entries fun x a b hab => by rw [hab.typeName, hab.text]

section

variable {settings : Settings} (hb : settings.lookup = .bound) (hv : settings.verbosity = 0)
include hb hv

/-- Programs that differ in the names of local variables, from the same heap. -/
theorem Run.agree_program {w : World} {h : Heap} (hw : Heap.Renamed w h h) (readings fuel : Nat)
    {p p' : Program Binding} (hp : StmtsRenamed [] p p') :
    renamed.Agree Done w (program settings fuel p ⟨h, readings, #[]⟩)
      (program settings fuel p' ⟨h, readings, #[]⟩) :=
  program_renames hb (by omega) fuel hw.globals hp ⟨h, readings, #[]⟩ ⟨h, readings, #[]⟩
    ⟨hw, rfl, rfl⟩

/-- Whatever a session has come to, its heap is related to itself. -/
theorem History.heap_renamed {s : Session} {roots : List Root} (hh : History settings s roots) :
    ∃ w, Heap.Renamed w s.heap s.heap := by
  induction hh with
  | start => exact ⟨_, Heap.renamed_initial⟩
  | @run s roots fuel source _ ha ih =>
    obtain ⟨w, hw⟩ := ih
    have hrun := agree_program hb hv hw s.readings fuel
      (StmtsRenamed.refl .nil (ofProgram (Reading.ofSource source).program).program)
    rw [(Session.submit_of_accepts ha).1]
    unfold Root.run Session.root
    dsimp only
    generalize hr : program settings fuel _ _ = r at hrun ⊢
    cases r with
    | ok a m =>
      cases hrun with
      | ok _ hm _ => exact ⟨_, hm.heap⟩
    | error e m =>
      cases hrun with
      | error _ hm _ => exact ⟨_, hm.heap⟩
  | refuse fuel _ ha ih =>
    rw [(Session.submit_of_not_accepts ha).1]
    exact ih
  | forgive _ ih => exact ih
  | closeLog _ ih => exact ih

namespace Session

/-- From a heap that is related to itself, programs that differ in the names of local variables
do the same. -/
theorem run_doesSame {s : Session} {w : World} (hw : Heap.Renamed w s.heap s.heap) (fuel : Nat)
    {p p' : Program Binding} (hp : StmtsRenamed [] p p')
    (references references' : Array LocalReference) :
    ((run settings fuel s p).record references).DoesSame
      ((run settings fuel s p').record references') := by
  have hrun := agree_program hb hv hw s.readings fuel hp
  unfold run
  generalize program settings fuel p _ = r at hrun ⊢
  generalize program settings fuel p' _ = r' at hrun ⊢
  cases hrun with
  | ok _ hm _ =>
    exact ⟨congrArg Array.toList hm.events, rfl, rfl, hm.heap.map_globals, Iff.rfl, Iff.rfl,
      Iff.rfl⟩
  | error _ hm he =>
    have hevents := congrArg Array.toList hm.events
    cases he with
    | failure f =>
      exact ⟨congrArg (· ++ _ ++ [Event.failed f]) hevents, rfl, rfl, hm.heap.map_globals,
        Iff.rfl, Iff.rfl, Iff.rfl⟩
    | unset x y =>
      exact ⟨hevents, rfl, rfl, hm.heap.map_globals, iff_of_false nofun nofun,
        iff_of_true ⟨y, rfl⟩ ⟨x, rfl⟩, iff_of_false nofun nofun⟩
    | pastOutermost => exact ⟨hevents, rfl, rfl, hm.heap.map_globals, Iff.rfl, Iff.rfl, Iff.rfl⟩
    | outOfFuel => exact ⟨hevents, rfl, rfl, hm.heap.map_globals, Iff.rfl, Iff.rfl, Iff.rfl⟩

end Session

end

namespace Session

/-- An accepted program does what it does when it runs, as long as nothing is noted. -/
theorem resolveAndRun_eq_run {settings : Settings} (hv : settings.verbosity = 0) (fuel : Nat)
    (s : Session) {p : Program Unit} (ha : (ofProgram p).diagnostics = []) :
    s.resolveAndRun settings fuel p = (run settings fuel s (ofProgram p).program).record
      (s.references ++ (ofProgram p).references) := by
  unfold resolveAndRun
  simp only [ha, List.isEmpty_nil, if_true, note_of_verbosity hv]
  exact run_references ..

/-- The local names of an accepted program do not matter.  Wherever a parameter or variable is
declared in a local scope, it may have any other name that does not occur in the program.
Under that name the program is accepted too, with the same distances.  Run in whatever a
session has come to, as a program or as a text that reads as the program, it prints the same,
fails alike, leaves globals that show the same, and is abandoned for a variable that is not
set just if the program is. -/
theorem does_same_of_respell {source : String} {p : Program Unit} {c : Respelling}
    (hread : Reading.ofSource source = ⟨p, []⟩) (ha : (ofProgram p).diagnostics = [])
    (hd : DeclaresVariable p c.scope c.old) (hnew : c.new ≠ "this" ∧ c.new ≠ "super")
    (hfresh : ¬ OccursIn p c.new) :
    (ofProgram (p.respell c)).diagnostics = [] ∧
      (ofProgram (p.respell c)).references.map LocalReference.place =
        (ofProgram p).references.map LocalReference.place ∧
      ∀ {settings : Settings} {s : Session} {roots : List Root}, settings.lookup = .bound →
        settings.verbosity = 0 → History settings s roots → ∀ fuel,
          (s.resolveAndRun settings fuel p).DoesSame
              (s.resolveAndRun settings fuel (p.respell c)) ∧
            ∀ {respelled : String}, Reading.ofSource respelled = ⟨p.respell c, []⟩ →
              (s.submit settings fuel source).DoesSame (s.submit settings fuel respelled) := by
  have hl : legalStmts p := by
    have hl := Reading.legal source
    rwa [hread] at hl
  have hc : c.Apt p := .of_accepted hl ha hd hnew hfresh
  obtain ⟨hp, haccepted, hplaces⟩ := hc.ofProgram_respell
  have ha' := haccepted.mpr ha
  refine ⟨ha', hplaces, fun {settings s roots} hb hv hh fuel => ?_⟩
  obtain ⟨w, hw⟩ := hh.heap_renamed hb hv
  have hrun := run_doesSame hb hv hw fuel hp
  refine ⟨?_, fun {respelled} hread' => ?_⟩
  · rw [resolveAndRun_eq_run hv fuel s ha, resolveAndRun_eq_run hv fuel s ha']
    exact hrun _ _
  · cases herror : s.hadError with
    | true =>
      unfold submit
      simp only [herror, hread, hread', Bool.true_or, if_true]
      exact .refl _
    | false =>
      rw [submit_eq_run hv fuel herror hread ha, submit_eq_run hv fuel herror hread' ha']
      exact hrun _ _

/-- The parameter of a function gets a name of its own, apart from that of the variable that
hides it in a block. -/
theorem does_same_of_respell_parameter :
    let text (x : String) :=
      "fun f(" ++ x ++ ") \x7b \x7b var a; \x7d print " ++ x ++ "; \x7d f(true);"
    let tree (x : String) : Program Unit :=
      [.functionDecl (.mk ⟨"f", 1⟩ [⟨x, 1⟩]
        [.block [.var ⟨"a", 1⟩ none], .print (.variable ⟨⟨x, 1⟩, ()⟩)]),
        .expression (.call (.variable ⟨⟨"f", 1⟩, ()⟩) 1 [.literal (.boolean true)])]
    let c : Respelling := ⟨[0], "a", "b"⟩
    let settings : Settings := .standard 0 fun _ => 0
    Reading.ofSource (text "a") = ⟨tree "a", []⟩ ∧ (ofProgram (tree "a")).diagnostics = [] ∧
      DeclaresVariable (tree "a") c.scope c.old ∧ (c.new ≠ "this" ∧ c.new ≠ "super") ∧
      ¬ OccursIn (tree "a") c.new ∧ (tree "a").respell c = tree "b" ∧
      Reading.ofSource (text "b") = ⟨(tree "a").respell c, []⟩ ∧
      (ofProgram ((tree "a").respell c)).diagnostics = [] ∧
      (ofProgram ((tree "a").respell c)).references.map LocalReference.place =
        (ofProgram (tree "a")).references.map LocalReference.place ∧
      (start.resolveAndRun settings 20 (tree "a")).DoesSame
        (start.resolveAndRun settings 20 ((tree "a").respell c)) ∧
      (start.submit settings 20 (text "a")).DoesSame (start.submit settings 20 (text "b")) ∧
      (start.submit settings 20 (text "a")).events = [.printed "true"] := by
  intro text tree c settings
  -- Trees have no decidable equality, so the texts are compared by their tokens.
  let tokens (x : String) : List Token :=
    [(.funKw, "fun"), (.identifier, "f"), (.leftParen, "("), (.identifier, x),
      (.rightParen, ")"), (.leftBrace, "\x7b"), (.leftBrace, "\x7b"), (.varKw, "var"),
      (.identifier, "a"), (.semicolon, ";"), (.rightBrace, "\x7d"), (.printKw, "print"),
      (.identifier, x), (.semicolon, ";"), (.rightBrace, "\x7d"), (.identifier, "f"),
      (.leftParen, "("), (.trueKw, "true"), (.rightParen, ")"), (.semicolon, ";")].map
        fun t : TokenKind × String => ⟨t.1, t.2, none, 1⟩
  have hscan : Scan.ofSource (text "a") = ⟨tokens "a", [], 1⟩ := by decide +kernel
  have hscan' : Scan.ofSource (text "b") = ⟨tokens "b", [], 1⟩ := by decide +kernel
  have hread : Reading.ofSource (text "a") = ⟨tree "a", []⟩ := by
    rw [Reading.ofSource, hscan]
    rfl
  have htree : (tree "a").respell c = tree "b" := by rfl
  have hread' : Reading.ofSource (text "b") = ⟨(tree "a").respell c, []⟩ := by
    rw [htree, Reading.ofSource, hscan']
    rfl
  have ha : (ofProgram (tree "a")).diagnostics = [] := by decide +kernel
  have hd : DeclaresVariable (tree "a") c.scope c.old := by decide +kernel
  have hnew : c.new ≠ "this" ∧ c.new ≠ "super" := by decide
  have hfresh : ¬ OccursIn (tree "a") c.new :=
    not_occursIn_of_depth 6 (by decide +kernel) (by decide +kernel)
  obtain ⟨ha', hplaces, hsame⟩ := does_same_of_respell hread ha hd hnew hfresh
  obtain ⟨hrun, hsubmit⟩ := @hsame settings start [] rfl rfl .start 20
  exact ⟨hread, ha, hd, hnew, hfresh, htree, hread', ha', hplaces, hrun, hsubmit hread',
    by decide +kernel⟩

end Session

end ClassScript
