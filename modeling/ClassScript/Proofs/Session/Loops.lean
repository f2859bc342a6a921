import ClassScript.Proofs.Loops.Resolution
import ClassScript.Proofs.Loops.Rounds
import ClassScript.Proofs.Session.Blocks
import ClassScript.Proofs.Session.Renaming

/-!
# Sessions with direct loops

A session may take program texts whose loops keep their increments apart, and resolve and run
them without scopes for rounds (`Semantics.direct`).  It does the same as the session that
takes the texts as they are read, with the loops written out (`Session.Abreast.reshaped`).

The two sessions stay related: what lives on in the first one has environments for rounds, and
these hold no variable.
-/

namespace ClassScript

open Run

/-! ## Semantics -/

/-- How programs are resolved and run. -/
structure Semantics where
  /-- Binds the references of a program. -/
  resolve : Program Unit → Resolution
  /-- Runs a program with its bindings. -/
  run : Settings → Nat → Program Binding → Run Unit

/-- The semantics of programs whose loops are written out. -/
def Semantics.standard : Semantics := ⟨Resolution.ofProgram, Run.program⟩

/-- The semantics of programs whose loops keep their increments apart. -/
def Semantics.direct : Semantics := ⟨Resolution.directly, Run.programDirect⟩

namespace Session

/-- Runs a resolved program. -/
def runBy (σ : Semantics) (settings : Settings) (fuel : Nat) (s : Session)
    (program : Program Binding) : Step :=
  match σ.run settings fuel program ⟨s.heap, s.readings, #[]⟩ with
  | .ok _ m => ⟨{ s with heap := m.heap, readings := m.readings }, m.events.toList, none⟩
  | .error abort m =>
    let s := { s with heap := m.heap, readings := m.readings }
    match abort with
    | .failure f =>
      ⟨{ s with hadFailure := true },
        m.events.toList ++ note settings 1 ("runtime error: " ++ f.summary) ++ [.failed f], none⟩
    | _ => ⟨s, m.events.toList, some abort⟩

/-- Resolves a program and runs it. -/
def resolveAndRunBy (σ : Semantics) (settings : Settings) (fuel : Nat) (s : Session)
    (program : Program Unit) : Step :=
  let resolution := σ.resolve program
  let s := { s with references := s.references ++ resolution.references }
  if resolution.diagnostics.isEmpty then
    precede
      (note settings 1 ("resolved " ++ toString s.references.size ++ " local references"))
      (runBy σ settings fuel s resolution.program)
  else ⟨{ s with hadError := true }, resolution.diagnostics.map .diagnosed, none⟩

/-- Takes what was read. -/
def take (σ : Semantics) (settings : Settings) (fuel : Nat) (s : Session) (reading : Reading) :
    Step :=
  let s := { s with hadError := s.hadError || !reading.diagnostics.isEmpty }
  let reports := reading.diagnostics.map Event.diagnosed
  if s.hadError then ⟨s, reports, none⟩
  else
    precede
      (reports
        ++ note settings 1 ("parsed " ++ toString reading.program.length ++ " statements"))
      (resolveAndRunBy σ settings fuel s reading.program)

/-- A session takes texts by the standard semantics. -/
theorem take_standard (settings : Settings) (fuel : Nat) (s : Session) (source : String) :
    s.take .standard settings fuel (.ofSource source) = s.submit settings fuel source :=
  rfl

end Session

/-! ## Related sessions -/

theorem Heap.reshaped_initial (k : Reshaping) :
    Heap.Reshaped k [.shared none .globals none] .initial .initial := by
  -- The globals are the only environment.
  have honly : ∀ {env : EnvId} {p : PairedEnv},
      [PairedEnv.shared none .globals none][env.index]? = some p →
        env = .globals ∧ p = .shared none .globals none := by
    rintro ⟨i⟩ p hp
    cases i with
    | zero => exact ⟨rfl, (Option.some.inj hp).symm⟩
    | succ i => cases hp
  refine ⟨rfl, fun env outer twin outer' hp => ?_, fun env other _ _ _ _ _ hp hq => ?_,
    fun env outer hp => ?_, .outermost rfl, rfl, fun object x => ?_, rfl⟩
  · obtain ⟨rfl, hp⟩ := honly hp
    cases hp
    exact ⟨rfl, rfl, by decide, .single rfl (.native 0 .clock)⟩
  · rw [(honly hp).1, (honly hq).1]
  · cases (honly hp).2
  · rw [Heap.field?_initial]
    exact .none

/-- The globals of related heaps have the same names and show the same. -/
theorem Heap.Reshaped.map_globals {k : Reshaping} {w : Pairing} {h h' : Heap}
    (hh : Heap.Reshaped k w h h') :
    (h'.slots .globals).entries.map (fun entry => (entry.1, entry.2.typeName, entry.2.text)) =
      (h.slots .globals).entries.map fun entry => (entry.1, entry.2.typeName, entry.2.text) := by
  obtain ⟨outer, outer', hp⟩ := hh.globals.twin (.outermost 0)
  obtain ⟨-, -, -, hs⟩ := hh.twins _ _ _ _ hp
  exact hs.map_entries fun x a b hab => by rw [hab.typeName, hab.text]

/-- Sessions that ran programs of different shape. -/
structure Session.Reshaped (k : Reshaping) (w : Pairing) (s t : Session) : Prop where
  heap : Heap.Reshaped k w s.heap t.heap
  readings : t.readings = s.readings
  references : t.references.size = s.references.size
  hadError : t.hadError = s.hadError
  hadFailure : t.hadFailure = s.hadFailure
  logOpen : t.logOpen = s.logOpen

/-- Steps of such sessions that do the same. -/
structure Step.Reshaped (k : Reshaping) (step step' : Step) : Prop where
  events : step'.events = step.events
  abort : step'.abort = step.abort
  session : ∃ w, Session.Reshaped k w step.session step'.session

theorem Step.Reshaped.precede {k : Reshaping} {step step' : Step} (h : Step.Reshaped k step step')
    {events events' : List Event} (he : events' = events) :
    Step.Reshaped k (Session.precede events step) (Session.precede events' step') :=
  ⟨congrArg₂ (· ++ ·) he h.events, h.abort, h.session⟩

theorem Step.Reshaped.doesSame {k : Reshaping} {step step' : Step}
    (h : Step.Reshaped k step step') : step.DoesSame step' := by
  obtain ⟨w, hs⟩ := h.session
  have ha := h.abort
  exact ⟨h.events, hs.hadError, hs.hadFailure, hs.heap.map_globals, by rw [ha], by rw [ha],
    by rw [ha]⟩

theorem length_expandStmts (p : Program Unit) : (expandStmts p).length = p.length := by
  induction p with
  | nil => rfl
  | cons s rest ih => exact congrArg (· + 1) ih

/-- What a text says, with its loops written out. -/
def Reading.expand (reading : Reading) : Reading :=
  { reading with program := expandStmts reading.program }

/-- If the runs of two sessions come to related ends, so do their steps. -/
theorem Session.Reshaped.runBy {k : Reshaping} {settings : Settings} {w : Pairing} {s t : Session}
    (h : Session.Reshaped k w s t) {σ σ' : Semantics} {fuel fuel' : Nat} {p p' : Program Binding}
    (hrun : (reshaped k).Agree Run.Ends w (σ.run settings fuel p ⟨s.heap, s.readings, #[]⟩)
      (σ'.run settings fuel' p' ⟨t.heap, t.readings, #[]⟩)) :
    Step.Reshaped k (s.runBy σ settings fuel p) (t.runBy σ' settings fuel' p') := by
  unfold Session.runBy
  generalize σ.run settings fuel p _ = r, σ'.run settings fuel' p' _ = r' at hrun ⊢
  cases hrun with
  | ok _ hm _ =>
    exact ⟨congrArg Array.toList hm.events, rfl, _, hm.heap, hm.readings, h.references, h.hadError,
      h.hadFailure, h.logOpen⟩
  | @error w' e e' m m' _ hm he =>
    obtain rfl : e' = e := he
    have hevents := congrArg Array.toList hm.events
    have hs (failed failed' : Bool) (hf : failed' = failed) : Session.Reshaped k w'
        { s with heap := m.heap, readings := m.readings, hadFailure := failed }
        { t with heap := m'.heap, readings := m'.readings, hadFailure := failed' } :=
      ⟨hm.heap, hm.readings, h.references, h.hadError, hf, h.logOpen⟩
    cases e' with
    | failure f => exact ⟨congrArg (· ++ _ ++ [Event.failed f]) hevents, rfl, _, hs _ _ rfl⟩
    | _ => exact ⟨hevents, rfl, _, hs _ _ h.hadFailure⟩

namespace Session.Reshaped

variable {settings : Settings} (hb : settings.lookup = .bound) {w : Pairing} {s t : Session}
include hb

theorem run (h : Reshaped .rounds w s t) (fuel : Nat) {p p' : Program Binding}
    (hp : StmtsReshaped .rounds [] p p') :
    Step.Reshaped .rounds (s.runBy .standard settings fuel p)
      (t.runBy .direct settings fuel p') :=
  h.runBy (program_reshapes hb fuel h.heap.globals hp ⟨s.heap, s.readings, #[]⟩
    ⟨t.heap, t.readings, #[]⟩ ⟨h.heap, h.readings, rfl⟩).agree_of_same

theorem resolveAndRun (h : Reshaped .rounds w s t) (fuel : Nat) {p : Program Unit}
    (hp : legalStmts (expandStmts p)) :
    Step.Reshaped .rounds (s.resolveAndRunBy .standard settings fuel (expandStmts p))
      (t.resolveAndRunBy .direct settings fuel p) := by
  obtain ⟨hprogram, hdiagnostics, hreferences⟩ := Resolution.directly_shadows hp
  have hsize : (t.references ++ (Resolution.directly p).references).size =
      (s.references ++ (Resolution.ofProgram (expandStmts p)).references).size := by
    rw [Array.size_append, Array.size_append, h.references, hreferences]
  have hs : Reshaped .rounds w
      { s with references := s.references ++ (Resolution.ofProgram (expandStmts p)).references }
      { t with references := t.references ++ (Resolution.directly p).references } :=
    ⟨h.heap, h.readings, hsize, h.hadError, h.hadFailure, h.logOpen⟩
  have hrun := hs.run hb fuel hprogram
  unfold resolveAndRunBy
  unfold Semantics.standard Semantics.direct at hrun ⊢
  dsimp only at hrun ⊢
  rw [hdiagnostics, hsize]
  split
  · exact hrun.precede rfl
  · exact ⟨rfl, rfl, w, h.heap, h.readings, hsize, rfl, h.hadFailure, h.logOpen⟩

/-- A session takes a text as the related one takes it with its loops kept apart. -/
theorem take (h : Reshaped .rounds w s t) (fuel : Nat) {source : String} {reading : Reading}
    (hr : Reading.ofSource source = reading.expand) :
    Step.Reshaped .rounds (s.submit settings fuel source)
      (t.take .direct settings fuel reading) := by
  have hlegal : legalStmts (expandStmts reading.program) := by
    have hl := Reading.legal source
    rwa [hr] at hl
  have hs (mark : Bool) :
      Reshaped .rounds w { s with hadError := mark } { t with hadError := mark } :=
    ⟨h.heap, h.readings, h.references, rfl, h.hadFailure, h.logOpen⟩
  rw [← take_standard, hr]
  unfold Session.take Reading.expand
  dsimp only
  rw [h.hadError, length_expandStmts]
  split
  · exact ⟨rfl, rfl, w, hs _⟩
  · exact ((hs _).resolveAndRun hb fuel hlegal).precede rfl

end Session.Reshaped

namespace Session

/-- Two sessions that took the same texts.  The first one took them as they are read, the second
one with their loops kept apart, by the direct semantics. -/
inductive Abreast (settings : Settings) : Session → Session → Prop where
  | start : Abreast settings .start .start
  | take {s t : Session} {source : String} {reading : Reading} (fuel : Nat) :
      Abreast settings s t → Reading.ofSource source = reading.expand →
      Abreast settings (s.submit settings fuel source).session
        (t.take .direct settings fuel reading).session
  | forgive {s t : Session} : Abreast settings s t → Abreast settings s.forgive t.forgive
  | closeLog {s t : Session} : Abreast settings s t → Abreast settings s.closeLog t.closeLog

theorem Abreast.reshaped {settings : Settings} (hb : settings.lookup = .bound) {s t : Session}
    (h : Abreast settings s t) : ∃ w, Session.Reshaped .rounds w s t := by
  induction h with
  | start => exact ⟨_, Heap.reshaped_initial _, rfl, rfl, rfl, rfl, rfl⟩
  | take fuel _ hr ih =>
    obtain ⟨w, hw⟩ := ih
    exact (hw.take hb fuel hr).session
  | forgive _ ih =>
    obtain ⟨w, hw⟩ := ih
    exact ⟨w, hw.heap, hw.readings, hw.references, rfl, hw.hadFailure, hw.logOpen⟩
  | closeLog _ ih =>
    obtain ⟨w, hw⟩ := ih
    exact ⟨w, hw.heap, hw.readings, hw.references, hw.hadError, hw.hadFailure, rfl⟩

/-- What a loop with clauses means.

* The tree of the grammar is that of a loop which keeps its increment apart, written out.
* Such a loop is resolved and runs as `Resolution.Direct.resolveFor` and `Run.forLoop` say: one
  scope and one environment for its initializer and all of its rounds.
* A session that takes a text with such loops prints the same, reports the same mistakes and
  the same failure, and leaves globals that show the same, as the session that takes the text as
  it is read, and the two stay alike whatever they take next.
* In the tree that is written out, the environment of a round has that of the loop around it and
  never holds a variable. -/
theorem forStmt_direct {settings : Settings} (hb : settings.lookup = .bound) :
    ((∀ (initializer : Option (Stmt Unit)) (condition increment : Option (Expr Unit))
        (body : Stmt Unit), body.declared = none →
        (Stmt.forStmt initializer condition increment body).expand =
          .forLoop (initializer.map Stmt.expand) (condition.map Expr.expand)
            (increment.map Expr.expand) body.expand) ∧
      ∀ p : Program Unit, legalStmts p → expandStmts p = p) ∧
    (∀ (context : Resolution.Context) (initializer : Option (Stmt Unit))
      (condition increment : Option (Expr Unit)) (body : Stmt Unit), body.declared = none →
      Resolution.Direct.resolveStmt context false (.forStmt initializer condition increment body) =
        Resolution.Direct.resolveFor context initializer condition increment body) ∧
    (∀ (fuel depth : Nat) (env : EnvId) (initializer : Option (Stmt Binding))
      (condition increment : Option (Expr Binding)) (body : Stmt Binding), body.declared = none →
      (Code.node env (.stmt (.forStmt initializer condition increment body))).runDirect settings
          (fuel + 1) depth false =
        Run.forLoop settings depth env initializer condition increment body fuel) ∧
    (∀ s t : Session, Abreast settings s t → ∀ (fuel : Nat) (source : String) (reading : Reading),
      Reading.ofSource source = reading.expand →
        (s.submit settings fuel source).DoesSame (t.take .direct settings fuel reading) ∧
          (t.take .direct settings fuel reading).abort = (s.submit settings fuel source).abort) ∧
    ∀ (s : Session) (roots : List Root) (v v' : Visit) (env : EnvId) (body : Stmt Binding)
      (step : Expr Binding), History settings s roots → Reached settings roots v →
      v.code = .node env (.stmt (.block [body, .expression step])) → body.declared = none →
      v.Starts settings 0 v' →
        v'.code = .node v.heap.nextEnv (.stmts [body, .expression step]) ∧
          s.heap.parent? v.heap.nextEnv = some env ∧ ∀ x, ¬ s.heap.Has v.heap.nextEnv x := by
  refine ⟨⟨fun _ _ _ _ => Stmt.expand_forStmt _ _ _, fun _ => expandStmts_of_legal⟩,
    fun _ _ _ _ _ => Resolution.Direct.resolveStmt_forStmt _ _ _ _,
    fun fuel depth env _ _ _ _ => Code.runDirect_forStmt settings depth env fuel _ _ _,
    fun s t h fuel source reading hr => ?_, fun s roots v v' env body step hh hv hc hd hs => ?_⟩
  · obtain ⟨w, hw⟩ := h.reshaped hb
    have hstep := hw.take hb fuel hr
    exact ⟨hstep.doesSame, hstep.abort⟩
  · obtain ⟨hcode, hm⟩ := hs.block hc
    have hlasting : Lasting settings roots Heap.Grows := grows_stepLaw.lasting
    have hgrows := (Moment.lasting hh hlasting (.visit (.step hv hs) (.inl rfl))).2
    rw [Visit.heap, hm] at hgrows
    have hnames : declaredNames [body, .expression step] = [] := by
      rw [declaredNames_cons, declaredNames_of_none hd]
      rfl
    refine ⟨hcode, ?_, fun x hx => ?_⟩
    · rw [hgrows.parent _ (by simp [Heap.nextEnv, Heap.pushEnv])]
      exact Heap.parent?_pushEnv_self ..
    · have hmem := hh.has_of_block hb hv hc hs hx
      rw [hnames] at hmem
      cases hmem

set_option maxRecDepth 4000 in
/-- A loop over a variable that a function from its first round keeps. -/
theorem forStmt_direct_captured :
    let settings : Settings := .standard 0 fun _ => 0
    let text := "var g; for (var a = true; a; a = nil) " ++
      "\x7b fun f() \x7b print a; \x7d g = f; f(); \x7d g();"
    let name (x : String) : Expr Unit := .variable ⟨⟨x, 1⟩, ()⟩
    let body : Stmt Unit := .block [.functionDecl (.mk ⟨"f", 1⟩ [] [.print (name "a")]),
      .expression (.assign ⟨⟨"g", 1⟩, ()⟩ (name "f")), .expression (.call (name "f") 1 [])]
    let reading : Reading := ⟨[.var ⟨"g", 1⟩ none,
      .forStmt (some (.var ⟨"a", 1⟩ (some (.literal (.boolean true))))) (some (name "a"))
        (some (.assign ⟨⟨"a", 1⟩, ()⟩ (.literal .nil))) body,
      .expression (.call (name "g") 1 [])], []⟩
    settings.lookup = .bound ∧ body.declared = none ∧ Reading.ofSource text = reading.expand ∧
      (start.submit settings 40 text).DoesSame (start.take .direct settings 40 reading) ∧
      (start.submit settings 40 text).events = [.printed "true", .printed "nil"] := by
  intro settings text name body reading
  -- Trees have no decidable equality, so the text is compared by its tokens.
  have hscan : Scan.ofSource text = ⟨
    [(.varKw, "var"), (.identifier, "g"), (.semicolon, ";"), (.forKw, "for"), (.leftParen, "("),
      (.varKw, "var"), (.identifier, "a"), (.equal, "="), (.trueKw, "true"), (.semicolon, ";"),
      (.identifier, "a"), (.semicolon, ";"), (.identifier, "a"), (.equal, "="), (.nilKw, "nil"),
      (.rightParen, ")"), (.leftBrace, "\x7b"), (.funKw, "fun"), (.identifier, "f"),
      (.leftParen, "("), (.rightParen, ")"), (.leftBrace, "\x7b"), (.printKw, "print"),
      (.identifier, "a"), (.semicolon, ";"), (.rightBrace, "\x7d"), (.identifier, "g"),
      (.equal, "="), (.identifier, "f"), (.semicolon, ";"), (.identifier, "f"), (.leftParen, "("),
      (.rightParen, ")"), (.semicolon, ";"), (.rightBrace, "\x7d"), (.identifier, "g"),
      (.leftParen, "("), (.rightParen, ")"), (.semicolon, ";")].map
        fun t : TokenKind × String => ⟨t.1, t.2, none, 1⟩, [], 1⟩ := by decide +kernel
  have hread : Reading.ofSource text = reading.expand := by
    rw [Reading.ofSource, hscan]
    rfl
  obtain ⟨-, -, -, hsame, -⟩ := @forStmt_direct settings rfl
  exact ⟨rfl, rfl, hread, (hsame start start .start 40 text reading hread).1, by decide +kernel⟩

end Session

end ClassScript
