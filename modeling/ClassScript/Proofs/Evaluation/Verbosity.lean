import ClassScript.Proofs.Evaluation.Simulation
import ClassScript.Proofs.Evaluation.Visit
import ClassScript.Proofs.Lines.Evaluation

/-!
# Evaluation at two verbosities

An evaluation under way decides by the verbosity which notes it writes, and by nothing
else.  So what a program does at a lower verbosity is what it does at a higher one with
some notes left out (`Run.quieter_program`).

A step that is the same at every verbosity also has to be the same after other events.
Mirroring says so (`Run.Blind.of_mirrors`), with the lines left as they are.
-/

namespace ClassScript

/-! ## Events with fewer notes -/

namespace Event

/-- The text of a note. -/
def note? : Event → Option String
  | noted line => some line
  | _ => none

/-- The first events are the second ones with some notes left out. -/
inductive Quieter : List Event → List Event → Prop where
  | nil : Quieter [] []
  | keep (e : Event) {es es' : List Event} : Quieter es es' → Quieter (e :: es) (e :: es')
  | leaveOut (line : String) {es es' : List Event} : Quieter es es' →
      Quieter es (.noted line :: es')

namespace Quieter

variable {es es' more more' : List Event}

theorem refl : ∀ es : List Event, Quieter es es
  | [] => .nil
  | e :: rest => .keep e (refl rest)

/-- Notes may be left out in front and behind. -/
theorem append (h : Quieter es es') (h' : Quieter more more') :
    Quieter (es ++ more) (es' ++ more') := by
  induction h with
  | nil => exact h'
  | keep e _ ih => exact .keep e ih
  | leaveOut line _ ih => exact .leaveOut line ih

/-- The notes that are kept are in order. -/
theorem notes (h : Quieter es es') : (es.filterMap note?).Sublist (es'.filterMap note?) := by
  induction h with
  | nil => exact .refl _
  | keep e _ ih =>
    cases e with
    | noted line => exact ih.cons_cons line
    | _ => exact ih
  | leaveOut line _ ih => exact ih.cons line

/-- Notes go to an open log, not to the output. -/
theorem output (h : Quieter es es') : Event.output true es = Event.output true es' := by
  unfold Event.output
  induction h with
  | nil => rfl
  | keep e _ ih => simp only [List.map_cons, String.join_cons, ih]
  | leaveOut line _ ih => simp [String.join_cons, ih, outputText]

/-- What is written to the error output is the same, notes apart. -/
theorem errorOutput (h : Quieter es es') : Event.errorOutput es = Event.errorOutput es' := by
  unfold Event.errorOutput
  induction h with
  | nil => rfl
  | keep e _ ih => simp only [List.map_cons, String.join_cons, ih]
  | leaveOut line _ ih => simp [String.join_cons, ih, errorText]

end Quieter

end Event

/-- The settings with another verbosity. -/
def Settings.atVerbosity (settings : Settings) (verbosity : Nat) : Settings :=
  { settings with verbosity }

namespace Run

/-! ## Runs with fewer notes -/

/-- Runs are compared by their machines, which are the same but for notes. -/
def quieter : Comparison Unit where
  le _ _ := True
  refl _ := trivial
  trans _ _ := trivial
  machines _ m m' := m'.heap = m.heap ∧ m'.readings = m.readings ∧
    Event.Quieter m.events.toList m'.events.toList
  aborts e e' := e' = e

/-- The first run is the second one with some notes left out. -/
abbrev Quieter {α : Type} (x y : Run α) : Prop := quieter.Simulates (fun _ a b => b = a) () x y

/-- What happened before makes no difference to the run. -/
def Blind {α : Type} (x : Run α) : Prop := ∀ before, Mirrors id before id x x

section

variable {α β : Type}

/-- A step that mirrors itself on the same lines does not look at the events. -/
theorem Blind.of_mirrors {φ : α → α} {x x' : Run α} (hx : x' = x) (hφ : ∀ a, φ a = a)
    (h : ∀ before, Mirrors id before φ x x') : Blind x := by
  subst hx
  obtain rfl : φ = id := funext hφ
  exact h

/-- Such a step does the same after fewer notes. -/
theorem Blind.quieter {x : Run α} (hx : Blind x) : Quieter x x := by
  intro m m' hm
  obtain ⟨heap, readings, events⟩ := m
  obtain ⟨heap', readings', events'⟩ := m'
  obtain ⟨rfl, rfl, hevents⟩ : heap' = heap ∧ readings' = readings ∧
    Event.Quieter events.toList events'.toList := hm
  -- Both runs are the run from the machine without events, after different events.
  have hstart : ∀ before : Array Event,
      (Machine.mk heap' readings' #[]).reline id before = ⟨heap', readings', before⟩ := by
    intro before
    rw [Machine.reline, Heap.reline_id, Array.append_empty]
  have hfirst := hx events ⟨heap', readings', #[]⟩
  have hsecond := hx events' ⟨heap', readings', #[]⟩
  rw [hstart] at hfirst hsecond
  rw [hfirst, hsecond]
  cases x ⟨heap', readings', #[]⟩ with
  | ok a m =>
    refine .ok (Run.quieter.refl ()) ⟨rfl, rfl, ?_⟩ rfl
    simpa [Machine.reline] using hevents.append (.refl m.events.toList)
  | error e m =>
    refine .error (Run.quieter.refl ()) ⟨rfl, rfl, ?_⟩ rfl
    simpa [Machine.reline] using hevents.append (.refl m.events.toList)

/-- Notes may be left out of both steps of a sequence. -/
theorem Quieter.bind {x y : Run α} {f g : α → Run β} (hx : Quieter x y)
    (hf : ∀ a, Quieter (f a) (g a)) : Quieter (x >>= f) (y >>= g) :=
  Comparison.Simulates.bind hx fun _ a _ _ h => h ▸ hf a

end

variable {settings : Settings} {n k : Nat} (h : n ≤ k)
include h

/-- A note is left out below its level. -/
theorem quieter_noted {m m' : Machine} (hm : quieter.machines () m m') (level : Nat)
    (line : String) :
    quieter.machines () (m.noted (settings.atVerbosity n) level line)
      (m'.noted (settings.atVerbosity k) level line) := by
  obtain ⟨hheap, hreadings, hevents⟩ := hm
  have hn : (settings.atVerbosity n).verbosity = n := rfl
  have hk : (settings.atVerbosity k).verbosity = k := rfl
  unfold Machine.noted
  rw [hn, hk]
  by_cases hlow : level ≤ n
  · rw [if_pos hlow, if_pos (Nat.le_trans hlow h)]
    exact ⟨hheap, hreadings, by simpa using hevents.append (.refl [.noted line])⟩
  · rw [if_neg hlow]
    split
    · exact ⟨hheap, hreadings, by simpa using hevents.append (.leaveOut line .nil)⟩
    · exact ⟨hheap, hreadings, hevents⟩

/-- A note that is written at the lower verbosity is written at the higher one. -/
theorem quieter_note (level : Nat) (line : String) :
    Quieter (if level ≤ (settings.atVerbosity n).verbosity then emit (.noted line) else pure ())
      (if level ≤ (settings.atVerbosity k).verbosity then emit (.noted line) else pure ()) := by
  intro m m' hm
  rw [note_apply, note_apply]
  exact .ok (Run.quieter.refl ()) (quieter_noted h hm level line) rfl

omit h

/-! ## Steps -/

namespace Blind

open Value

theorem throw {α : Type} {e : Abort} (he : e.reline id = e) : Blind (throw e : Run α) :=
  fun _ _ => congrArg (EStateM.Result.error · _) he.symm

theorem orFail (line : Nat) (x : Except RuntimeError Value) : Blind (orFail line x) :=
  .of_mirrors (by cases x <;> simp [Except.map, reline_id]) reline_id fun _ => Mirrors.orFail line x

theorem newEnv (parent : EnvId) (slots : Slots Value) : Blind (newEnv parent slots) :=
  .of_mirrors (by rw [slots.map_eq_self reline_id]) (fun _ => rfl) fun _ => .newEnv parent slots

theorem read (settings : Settings) (env : EnvId) (name : Name) (binding : Binding) :
    Blind (read settings env name binding) :=
  .of_mirrors rfl reline_id fun _ => .read settings env name binding

theorem write (settings : Settings) (env : EnvId) (name : Name) (binding : Binding)
    (value : Value) : Blind (write settings env name binding value) :=
  .of_mirrors (by rw [reline_id]; rfl) (fun _ => rfl) fun _ =>
    .write settings env name binding value

theorem define (env : EnvId) (name : String) (value : Value) : Blind (define env name value) :=
  .of_mirrors (by rw [reline_id]) (fun _ => rfl) fun _ => .define env name value

theorem setField (object : ObjectId) (name : String) (value : Value) :
    Blind (modifyHeap (·.setField object name value)) :=
  .of_mirrors (by rw [reline_id]) (fun _ => rfl) fun _ => .setField object name value

theorem newFunction (code : Closure) : Blind (newFunction code) :=
  .of_mirrors (by rw [Closure.reline_id]) reline_id fun _ => .newFunction code

theorem bindMethod (method : Closure) (object : Value) : Blind (bindMethod method object) :=
  .of_mirrors (by rw [Closure.reline_id, reline_id]) Closure.reline_id fun _ =>
    .bindMethod method object

theorem getProperty (object : ObjectId) (definition : Class) (property : Name) :
    Blind (getProperty object definition property) :=
  .of_mirrors (by rw [relineClass_id]; rfl) reline_id fun _ =>
    .getProperty object definition property

theorem getSuper (env : EnvId) (binding : Binding) (method : Name) :
    Blind (getSuper env binding method) :=
  .of_mirrors rfl reline_id fun _ => .getSuper env binding method

theorem callValue (code : Closure) (completion : Completion) : Blind (callValue code completion) :=
  .of_mirrors (by rw [Closure.reline_id]; cases completion <;> simp [Completion.reline, reline_id])
    reline_id fun _ => .callValue code completion

theorem superclassOf (settings : Settings) (env : EnvId)
    (superclass : Option (Reference Binding)) : Blind (superclassOf settings env superclass) :=
  .of_mirrors (by simp) (by rintro (_ | c) <;> simp [relineClass_id]) fun _ =>
    .superclassOf settings env superclass

theorem methodScope (env : EnvId) (parent : Option Class) : Blind (methodScope env parent) :=
  .of_mirrors (by cases parent <;> simp [relineClass_id]) (fun _ => rfl) fun _ =>
    .methodScope env parent

theorem fail {α : Type} (error : RuntimeError) (line : Nat) : Blind (fail error line : Run α) :=
  throw rfl

theorem emit (event : Event) : Blind (emit event) := fun _ => .emit event

theorem newObject : Blind newObject := fun _ => .newObject

theorem newId : Blind newId := fun _ => .newId

theorem readClock (settings : Settings) : Blind (readClock settings) :=
  .of_mirrors rfl reline_id fun _ => .readClock settings

end Blind

/-! ### Steps with notes -/

section

include h

/-- The note about a variable may be left out. -/
theorem quieter_declareVariable (env : EnvId) (name : Name) (value : Value) :
    Quieter (declareVariable (settings.atVerbosity n) env name value)
      (declareVariable (settings.atVerbosity k) env name value) :=
  (Blind.define env name.text value).quieter.bind fun _ => quieter_note h 2 _

theorem quieter_declareFunction (env : EnvId) (declaration : Function Binding) :
    Quieter (declareFunction (settings.atVerbosity n) env declaration)
      (declareFunction (settings.atVerbosity k) env declaration) := by
  cases declaration with
  | mk name parameters body =>
    exact (Blind.newFunction _).quieter.bind fun value =>
      (Blind.define env name.text value).quieter.bind fun _ => quieter_note h 2 _

/-- The note about a class may be left out. -/
theorem quieter_declareClass (env : EnvId) (name : Name) (superclass : Option (Reference Binding))
    (methods : List (Function Binding)) :
    Quieter (declareClass (settings.atVerbosity n) env name superclass methods)
      (declareClass (settings.atVerbosity k) env name superclass methods) :=
  (Blind.superclassOf (settings.atVerbosity k) env superclass).quieter.bind fun parent =>
    (Blind.define env name.text .nil).quieter.bind fun _ =>
      (Blind.methodScope env parent).quieter.bind fun _ =>
        Blind.newId.quieter.bind fun _ =>
          (Blind.define env name.text _).quieter.bind fun _ => quieter_note h 2 _

/-- The note about a call may be left out, and the check has the same outcome. -/
theorem quieter_checkCall (depth : Nat) (callee : Value) (count line : Nat) :
    Quieter (checkCall (settings.atVerbosity n) depth callee count line)
      (checkCall (settings.atVerbosity k) depth callee count line) := by
  intro m m' hm
  rw [checkCall_apply, checkCall_apply]
  have hnoted : quieter.machines () (m.noted (settings.atVerbosity n) 2 (callNote callee count))
      (m'.noted (settings.atVerbosity k) 2 (callNote callee count)) := quieter_noted h hm 2 _
  cases callee.arity? with
  | none => exact .error (Run.quieter.refl ()) hm rfl
  | some arity =>
    dsimp only
    split
    · -- The limit of calls is the same at both verbosities.
      show quieter.Agree _ _ (if settings.callLimit ≤ depth then _ else _)
        (if settings.callLimit ≤ depth then _ else _)
      split
      · exact .error (Run.quieter.refl ()) hnoted rfl
      · exact .ok (Run.quieter.refl ()) hnoted rfl
    · exact .error (Run.quieter.refl ()) hm rfl

end

end Run

/-! ## Plans -/

open Run

/-- The first plan is the second one with some notes left out of its steps. -/
inductive Plan.Quieter : {α : Type} → Plan α → Plan α → Prop where
  | finish {α : Type} (a : α) : Quieter (.finish a) (.finish a)
  | act {α β : Type} {step step' : Run β} {next next' : β → Plan α} :
      Run.Quieter step step' → (∀ b, Quieter (next b) (next' b)) →
      Quieter (.act step next) (.act step' next')
  | call {α : Type} {part depth : Nat} {code : Code} {next next' : code.Result → Plan α} :
      (∀ a, Quieter (next a) (next' a)) →
      Quieter (.call part depth code next) (.call part depth code next')

namespace Plan

variable {α β : Type}

namespace Quieter

theorem pure (a : α) : Quieter (pure a : Plan α) (Pure.pure a) := .finish a

theorem lift {step step' : Run α} (h : Run.Quieter step step') :
    Quieter (Plan.lift step) (Plan.lift step') :=
  act h finish

theorem step {step : Run α} (h : Run.Blind step) : Quieter (Plan.lift step) (Plan.lift step) :=
  lift h.quieter

/-- The visit of another code. -/
theorem visit {part depth : Nat} (code : Code) :
    Quieter (Plan.call part depth code Plan.finish) (Plan.call part depth code Plan.finish) :=
  call finish

theorem bind {p p' : Plan α} {f f' : α → Plan β} (hp : Quieter p p')
    (hf : ∀ a, Quieter (f a) (f' a)) : Quieter (p >>= f) (p' >>= f') := by
  induction hp with
  | finish a => exact hf a
  | act hstep _ ih => exact .act hstep ih
  | call _ ih => exact .call ih

theorem ite {c : Prop} [Decidable c] {p p' q q' : Plan α} (hp : Quieter p p') (hq : Quieter q q') :
    Quieter (if c then p else q) (if c then p' else q') := by
  split
  · exact hp
  · exact hq

/-- Following a quieter plan with quieter evaluations is quieter. -/
theorem follow {child child' : (depth : Nat) → (code : Code) → Run code.Result}
    (hchild : ∀ depth code, Run.Quieter (child depth code) (child' depth code)) {p p' : Plan α}
    (hp : Quieter p p') : Run.Quieter (p.follow child) (p'.follow child') := by
  induction hp with
  | finish a => exact .pure rfl
  | act hstep _ ih => exact hstep.bind ih
  | @call part depth code _ _ _ ih => exact (hchild depth code).bind ih

end Quieter

end Plan

section

variable {settings : Settings} {n k : Nat} (h : n ≤ k) (depth : Nat) (env : EnvId)
include h

/-- One level of the evaluation of an expression, with fewer notes. -/
theorem Expr.plan_quieter (e : Expr Binding) :
    (e.plan (settings.atVerbosity n) depth env).Quieter
      (e.plan (settings.atVerbosity k) depth env) := by
  cases e with
  | literal value => exact .pure _
  | grouping inner => exact .visit _
  | unary op line operand => exact .bind (.visit _) fun _ => .step (.orFail _ _)
  | binary left op line right =>
    exact .bind (.visit _) fun _ => .bind (.visit _) fun _ => .step (.orFail _ _)
  | logical left op line right =>
    exact .bind (.visit _) fun _ => .ite (.pure _) (.visit _)
  | «variable» target => exact .step (.read (settings.atVerbosity k) _ _ _)
  | assign target value =>
    exact .bind (.visit _) fun _ =>
      .bind (.step (.write (settings.atVerbosity k) _ _ _ _)) fun _ => .pure _
  | call callee line arguments =>
    exact .bind (.visit _) fun _ => .bind (.visit _) fun _ =>
      .bind (.lift (quieter_checkCall h _ _ _ _)) fun _ => .visit _
  | get object property =>
    refine .bind (.visit _) fun a => ?_
    split
    · exact .step (.getProperty _ _ _)
    · exact .step (.fail _ _)
  | set object field value =>
    refine .bind (.visit _) fun a => ?_
    split
    · exact .bind (.visit _) fun _ => .bind (.step (.setField _ _ _)) fun _ => .pure _
    · exact .step (.fail _ _)
  | this line binding => exact .step (.read (settings.atVerbosity k) _ _ _)
  | super line method binding => exact .step (.getSuper _ _ _)
  | lambda line parameters body => exact .step (.newFunction _)

/-- One level of the execution of a statement, with fewer notes. -/
theorem Stmt.plan_quieter (s : Stmt Binding) :
    (s.plan (settings.atVerbosity n) depth env).Quieter
      (s.plan (settings.atVerbosity k) depth env) := by
  cases s with
  | expression value => exact .bind (.visit _) fun _ => .pure _
  | print value => exact .bind (.visit _) fun _ => .bind (.step (.emit _)) fun _ => .pure _
  | var name initializer =>
    cases initializer with
    | none => exact .bind (.lift (quieter_declareVariable h _ _ _)) fun _ => .pure _
    | some value =>
      exact .bind (.visit _) fun _ =>
        .bind (.lift (quieter_declareVariable h _ _ _)) fun _ => .pure _
  | block body => exact .bind (.step (.newEnv _ _)) fun _ => .visit _
  | ifStmt condition thenBranch elifs elseBranch =>
    exact .bind (.visit _) fun _ => .bind (.lift (quieter_note h _ _)) fun _ =>
      .ite (.visit _) (.visit _)
  | whileStmt condition body => exact .visit _
  | functionDecl f => exact .bind (.lift (quieter_declareFunction h _ _)) fun _ => .pure _
  | returnStmt line value =>
    cases value with
    | none => exact .pure _
    | some value => exact .bind (.visit _) fun _ => .pure _
  | breakStmt line => exact .pure _
  | classDecl name superclass methods =>
    exact .bind (.lift (quieter_declareClass h _ _ _ _)) fun _ => .pure _

/-- One level of an evaluation has fewer notes at a lower verbosity, and nothing else less. -/
theorem Code.plan_quieter (code : Code) :
    (code.plan (settings.atVerbosity n) depth).Quieter
      (code.plan (settings.atVerbosity k) depth) := by
  cases code with
  | node env node =>
    cases node with
    | expr e => exact e.plan_quieter h depth env
    | exprs es =>
      cases es with
      | nil => exact .pure _
      | cons e rest => exact .bind (.visit _) fun _ => .bind (.visit _) fun _ => .pure _
    | stmt s => exact s.plan_quieter h depth env
    | stmts body =>
      cases body with
      | nil => exact .pure _
      | cons s rest =>
        refine .bind (.visit _) fun completion => ?_
        split
        · exact .visit _
        · exact .pure _
    | elifs branches elseBranch =>
      rcases branches with _ | ⟨⟨condition, body⟩, rest⟩
      · cases elseBranch with
        | none => exact .pure _
        | some s => exact .visit _
      · exact .bind (.visit _) fun _ => .ite (.visit _) (.visit _)
    | loop condition body =>
      refine .bind (.visit _) fun _ => .bind (.lift (quieter_note h _ _)) fun _ =>
        .ite (.pure _) (.bind (.visit _) fun completion => ?_)
      split
      · exact .visit _
      · exact .pure _
      · exact .pure _
  | invoke callee values =>
    show (Plan.ofCall _ depth callee values).Quieter (Plan.ofCall _ depth callee values)
    unfold Plan.ofCall
    split
    · exact .visit _
    · refine .bind (.step .newObject) fun _ => ?_
      split
      · exact .pure _
      · exact .bind (.step (.bindMethod _ _)) fun _ => .bind (.visit _) fun _ => .pure _
    · exact .step (.readClock (settings.atVerbosity k))
    · exact .pure _
  | closure code values =>
    exact .bind (.step (.newEnv _ _)) fun _ => .bind (.visit _) fun _ => .step (.callValue _ _)

end

/-! ## Evaluation -/

namespace Run

variable {settings : Settings} {n k : Nat} (h : n ≤ k)
include h

/-- An evaluation at a lower verbosity is the one at a higher verbosity with some notes left
out. -/
theorem quieter_run (fuel : Nat) : ∀ (depth : Nat) (code : Code),
    Quieter (code.run (settings.atVerbosity n) fuel depth)
      (code.run (settings.atVerbosity k) fuel depth) := by
  induction fuel with
  | zero =>
    intro depth code
    rw [Code.run_zero, Code.run_zero]
    exact .throw rfl
  | succ fuel ih =>
    intro depth code
    rw [Code.run_succ, Code.run_succ]
    exact (code.plan_quieter h depth).follow ih

/-- A program at a lower verbosity does the same, with some notes left out. -/
theorem quieter_program (fuel : Nat) (p : Program Binding) :
    Quieter (program (settings.atVerbosity n) fuel p)
      (program (settings.atVerbosity k) fuel p) := by
  induction p with
  | nil => exact .pure rfl
  | cons s rest ih => exact (quieter_run h fuel 0 (.node .globals (.stmt s))).bind fun _ => ih

end Run

end ClassScript
