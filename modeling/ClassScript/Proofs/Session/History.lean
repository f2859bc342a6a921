import ClassScript.Proofs.Scope.Provenance
import ClassScript.Proofs.Syntax.Reading
import ClassScript.Session

/-!
# Histories of sessions

A *history* is a session at its start and what is done with it: program texts are
submitted one after another, with any fuel, marks of mistakes are cleared, and the
log is closed.  Each program that is accepted on the way is a root, with the machine
that it starts with.

What is known of the heap is kept from one program to the next
(`History.invariant`), also if a program is abandoned.  So all evaluations that the
programs of a history come to are known (`History.known`).
-/

namespace ClassScript

open Resolution Run

/-! ## Runs of accepted programs -/

/-- The statements of a program run in turn. -/
theorem Root.program_cons (r : Root) {w : Site} {s : Stmt Unit} {rest : List (Stmt Unit)}
    (hn : w.node = .stmts (s :: rest)) :
    ∃ w₁ w₂ program program', w.parts = [w₁, w₂] ∧ w₂.node = .stmts rest ∧
      w.resolved = .stmts program ∧ w₂.resolved = .stmts program' ∧
      ∀ settings m, Run.program settings r.fuel program m =
        match (r.visit w₁ m).run settings with
        | .ok _ m' => Run.program settings r.fuel program' m'
        | .error e m' => .error e m' := by
  obtain ⟨context, names, node, state⟩ := w
  obtain rfl : node = .stmts (s :: rest) := hn
  let w₁ : Site := ⟨context, names, .stmt s, state⟩
  let w₂ : Site := ⟨context, names, .stmts rest, w₁.after⟩
  refine ⟨w₁, w₂, (resolveStmt context s state).1 :: (resolveStmts context rest w₁.after).1, _,
    rfl, rfl, rfl, rfl, fun settings m => ?_⟩
  rw [Run.program, bind_apply]
  cases hrun : (r.visit w₁ m).run settings with
  | ok a m' =>
    have hs : execute settings r.fuel 0 .globals (resolveStmt context s state).1 m =
        .ok a m' := hrun
    rw [hs]
  | error e m' =>
    have he : execute settings r.fuel 0 .globals (resolveStmt context s state).1 m =
        .error e m' := hrun
    rw [he]

section

variable {settings : Settings} {roots runs : List Root} {ν : Naming} {r : Root} {w w₁ w₂ : Site}
  {m : Machine} (hroots : ∀ r ∈ roots, r.Accepted) (hsub : runs ⊆ roots)
  (hb : settings.lookup = .bound)

include hroots hsub in
theorem Root.visit_known (hr : r ∈ runs) (hc : r.Comes settings w m) (hp : w.parts = [w₁, w₂])
    (hk : m.heap.Known settings roots ν) : (r.visit w₁ m).Known settings roots runs ν := by
  have ha := hroots r (hsub hr)
  obtain ⟨hw, hn, -⟩ := hc.outermost ha
  have hmem : w₁ ∈ w.parts := by simp [hp]
  have hpart := (Site.partOf_of_mem_parts (hw.sound ha.legal ha.accepted).legal hmem).1
  exact ⟨.root hr hc hp, hk, w₁, [], .root (hsub hr) hc hp, (hpart.names.trans hn).symm⟩

include hroots hsub hb

/-- The heap is known before each statement of a program. -/
theorem Root.Comes.known (hr : r ∈ runs) (hc : r.Comes settings w m)
    (hk : ∃ ν, r.machine.heap.Known settings roots ν) :
    ∃ ν, m.heap.Known settings roots ν := by
  induction hc with
  | start => exact hk
  | @next w w₁ w₂ m m' a hc hp hrun ih =>
    obtain ⟨ν, hν⟩ := ih
    have hv := Root.visit_known hroots hsub hr hc hp hν
    have hend := hv.run hroots hsub hb r.fuel (r.visit w₁ m) ν rfl
    have hrun' : (r.visit w₁ m).run settings = .ok a m' := hrun
    rw [hrun'] at hend
    obtain ⟨ν', hl, -⟩ := hend
    exact ⟨ν', hl.known⟩

/-- Every evaluation that the runs of accepted programs come to is known. -/
theorem Reached.known (hstart : ∀ r ∈ runs, ∃ ν, r.machine.heap.Known settings roots ν)
    {v : Visit} (hv : Reached settings runs v) : ∃ ν, v.Known settings roots runs ν := by
  induction hv with
  | root hr hc hp =>
    obtain ⟨ν, hν⟩ := hc.known hroots hsub hb hr (hstart _ hr)
    exact ⟨ν, Root.visit_known hroots hsub hr hc hp hν⟩
  | step _ hs ih =>
    obtain ⟨ν, hν⟩ := ih
    exact hν.starts hroots hsub hb hs

/-- What is left of a program ends well. -/
theorem Root.Comes.ends (hr : r ∈ runs) {body : List (Stmt Unit)}
    (hc : r.Comes settings w m) (hn : w.node = .stmts body)
    (hk : m.heap.Known settings roots ν) :
    ∃ program, w.resolved = .stmts program ∧
      Ends settings roots runs AnyValue ν m (Run.program settings r.fuel program m) := by
  induction body generalizing w m ν with
  | nil =>
    obtain ⟨context, names, node, state⟩ := w
    obtain rfl : node = .stmts [] := hn
    exact ⟨[], rfl, .ok hk trivial⟩
  | cons s rest ih =>
    obtain ⟨w₁, w₂, program, program', hp, hn', hprogram, hprogram', hsteps⟩ := r.program_cons hn
    have hv := Root.visit_known hroots hsub hr hc hp hk
    have hend := hv.run hroots hsub hb r.fuel (r.visit w₁ m) ν rfl
    refine ⟨program, hprogram, ?_⟩
    rw [hsteps]
    cases hrun : (r.visit w₁ m).run settings with
    | error e m' =>
      rw [hrun] at hend
      exact hend
    | ok c m' =>
      rw [hrun] at hend
      obtain ⟨ν', hl, -⟩ := hend
      obtain ⟨rest', hrest', hends⟩ := ih (hc.next hp hrun) hn' hl.known
      obtain rfl := Node.stmts.inj (hprogram'.symm.trans hrest')
      exact hends.after hl

end

/-! ## Sessions -/

/-- How a program runs. -/
def Root.run (settings : Settings) (r : Root) : EStateM.Result Abort Machine Unit :=
  Run.program settings r.fuel (Resolution.ofProgram r.program).program r.machine

/-- The run of an accepted program ends well. -/
theorem Root.ends {settings : Settings} {roots : List Root} {ν : Naming} {r : Root}
    (hroots : ∀ r ∈ roots, r.Accepted) (hb : settings.lookup = .bound) (hr : r ∈ roots)
    (hk : r.machine.heap.Known settings roots ν) :
    (∀ e m, r.run settings = .error e m → e.Allowed settings roots [r] m) ∧
      ∃ ν', Later settings roots ν r.machine.heap ν' (lastMachine (r.run settings)).heap := by
  have hc : r.Comes settings (.top r.program) r.machine := .start
  have hsub : [r] ⊆ roots := fun r' hr' => List.mem_singleton.mp hr' ▸ hr
  obtain ⟨program, hprogram, hend⟩ := hc.ends hroots hsub hb (List.mem_singleton_self r) rfl hk
  have he : (Resolution.ofProgram r.program).program = program := Node.stmts.inj hprogram
  rw [← he] at hend
  unfold Root.run
  cases hrun : Run.program settings r.fuel (Resolution.ofProgram r.program).program r.machine with
  | ok a m =>
    rw [hrun] at hend
    obtain ⟨ν', hl, -⟩ := hend
    exact ⟨nofun, ν', hl⟩
  | error e m =>
    rw [hrun] at hend
    obtain ⟨ha, ν', hl⟩ := hend
    exact ⟨fun e' m' h => by cases h; exact ha, ν', hl⟩

namespace Session

/-- Whether a session takes a program text for a program that it runs. -/
def Accepts (s : Session) (source : String) : Prop :=
  s.hadError = false ∧ (Reading.ofSource source).diagnostics = [] ∧
    (Resolution.ofProgram (Reading.ofSource source).program).diagnostics = []

/-- The start of the program of a text. -/
def root (s : Session) (fuel : Nat) (source : String) : Root :=
  ⟨fuel, (Reading.ofSource source).program, ⟨s.heap, s.readings, #[]⟩⟩

variable {settings : Settings} {fuel : Nat} {s : Session} {source : String}

/-- A text that is not accepted is answered with the mistakes of the stage that finds any. -/
theorem submit_eq_of_not_accepts (settings : Settings) (fuel : Nat) (h : ¬ s.Accepts source) :
    s.submit settings fuel source =
      if s.hadError = false ∧ (Reading.ofSource source).diagnostics = [] then
        ⟨{ s with
            references := s.references ++
              (Resolution.ofProgram (Reading.ofSource source).program).references
            hadError := true },
          note settings 1
              ("parsed " ++ toString (Reading.ofSource source).program.length ++ " statements") ++
            (Resolution.ofProgram (Reading.ofSource source).program).diagnostics.map .diagnosed,
          none⟩
      else
        ⟨{ s with hadError := true }, (Reading.ofSource source).diagnostics.map .diagnosed,
          none⟩ := by
  unfold submit
  dsimp only
  split
  · rename_i hmistake
    have hread : ¬ (s.hadError = false ∧ (Reading.ofSource source).diagnostics = []) := by
      rintro ⟨herror, hread⟩
      rw [herror, hread] at hmistake
      cases hmistake
    rw [if_neg hread, hmistake]
  · rename_i hclean
    have hread : s.hadError = false ∧ (Reading.ofSource source).diagnostics = [] := by
      simpa [List.isEmpty_iff] using hclean
    have hresolve :
        ¬ (Resolution.ofProgram (Reading.ofSource source).program).diagnostics.isEmpty :=
      fun hresolve => h ⟨hread.1, hread.2, List.isEmpty_iff.mp hresolve⟩
    rw [if_pos hread, hread.2]
    unfold resolveAndRun precede
    dsimp only
    rw [if_neg hresolve]
    rfl

/-- A text that is not accepted leaves the heap alone. -/
theorem submit_of_not_accepts (h : ¬ s.Accepts source) :
    (s.submit settings fuel source).session.heap = s.heap ∧
      (s.submit settings fuel source).session.readings = s.readings ∧
      (s.submit settings fuel source).abort = none := by
  rw [submit_eq_of_not_accepts settings fuel h]
  split <;> exact ⟨rfl, rfl, rfl⟩

/-- What is noted of a text that is accepted, before its program runs. -/
def acceptedNotes (settings : Settings) (s : Session) (source : String) : List Event :=
  note settings 1
      ("parsed " ++ toString (Reading.ofSource source).program.length ++ " statements") ++
    note settings 1 ("resolved " ++
      toString (s.references ++
        (Resolution.ofProgram (Reading.ofSource source).program).references).size ++
      " local references")

/-- A text that is accepted is noted and run. -/
theorem submit_eq_of_accepts (settings : Settings) (fuel : Nat) (h : s.Accepts source) :
    s.submit settings fuel source =
      precede (s.acceptedNotes settings source)
        (run settings fuel
          { s with references := s.references ++
              (Resolution.ofProgram (Reading.ofSource source).program).references }
          (Resolution.ofProgram (Reading.ofSource source).program).program) := by
  obtain ⟨herror, hread, hresolve⟩ := h
  unfold submit resolveAndRun precede acceptedNotes
  simp only [herror, hread, hresolve, List.isEmpty_nil, Bool.not_true, Bool.or_self,
    Bool.false_eq_true, if_false, if_true, List.map_nil, List.nil_append, List.append_assoc]

/-- A text that is accepted runs. -/
theorem submit_of_accepts (h : s.Accepts source) :
    (s.submit settings fuel source).session.heap =
        (lastMachine ((s.root fuel source).run settings)).heap ∧
      (s.submit settings fuel source).session.readings =
        (lastMachine ((s.root fuel source).run settings)).readings ∧
      (s.submit settings fuel source).abort =
        match (s.root fuel source).run settings with
        | .ok _ _ => none
        | .error (.failure _) _ => none
        | .error e _ => some e := by
  rw [submit_eq_of_accepts settings fuel h]
  unfold precede Session.run Root.run root
  dsimp only
  cases Run.program settings fuel (Resolution.ofProgram (Reading.ofSource source).program).program
      ⟨s.heap, s.readings, #[]⟩ with
  | ok a m => exact ⟨rfl, rfl, rfl⟩
  | error e m => cases e <;> exact ⟨rfl, rfl, rfl⟩

end Session

/-- A session starts without objects. -/
theorem Heap.field?_initial (o : ObjectId) (x : String) : Heap.initial.field? o x = none := by
  simp [Heap.field?, Heap.initial, Heap.takeId, Heap.pushEnv, Heap.empty]

/-- What a session can come to, with the starts of the programs that it ran. -/
inductive History (settings : Settings) : Session → List Root → Prop where
  | start : History settings .start []
  | run {s : Session} {roots : List Root} (fuel : Nat) {source : String} :
      History settings s roots → s.Accepts source →
      History settings (s.submit settings fuel source).session (roots ++ [s.root fuel source])
  | refuse {s : Session} {roots : List Root} (fuel : Nat) {source : String} :
      History settings s roots → ¬ s.Accepts source →
      History settings (s.submit settings fuel source).session roots
  | forgive {s : Session} {roots : List Root} :
      History settings s roots → History settings s.forgive roots
  | closeLog {s : Session} {roots : List Root} :
      History settings s roots → History settings s.closeLog roots

namespace History

variable {settings : Settings} {s : Session} {roots : List Root}

theorem known_initial (settings : Settings) (roots : List Root) :
    Heap.initial.Known settings roots fun _ => [] := by
  have hslots : ∀ (env : EnvId) x a, (Heap.initial.slots env).get? x = some a →
      env = .globals ∧ x = Native.clock.name ∧ a = .native 0 .clock := by
    rintro ⟨i⟩ x a hx
    cases i with
    | zero =>
      have hsingle : (Slots.single Native.clock.name (Value.native 0 .clock)).get? x = some a := hx
      have hc : (Slots.single Native.clock.name (Value.native 0 .clock)).contains x = true := by
        simp [Slots.contains, hsingle]
      obtain rfl := (Slots.contains_single ..).mp hc
      exact ⟨rfl, rfl, (Option.some.inj hsingle).symm⟩
    | succ i =>
      simp [Heap.initial, Heap.takeId, Heap.pushEnv, Heap.slots, Heap.empty,
        EmptyCollection.emptyCollection] at hx
  refine ⟨.globals (by decide) rfl, fun env x a hx => ?_, fun object x a hx => ?_,
    fun env a hx => ?_, fun env x hne hx => ?_⟩
  · rw [(hslots env x a hx).2.2]
    trivial
  · rw [Heap.field?_initial] at hx
    cases hx
  · exact absurd (hslots env _ a hx).2.1 (by decide)
  · obtain ⟨a, ha⟩ := Option.isSome_iff_exists.mp hx
    exact absurd (hslots env x a ha).1 hne

/-- The programs of a history are accepted, and what is known of the heap is kept:
whatever roots there are besides, they were made at sites. -/
theorem invariant (hb : settings.lookup = .bound) (hh : History settings s roots) :
    (∀ r ∈ roots, r.Accepted) ∧ ∀ all : List Root, (∀ r ∈ all, r.Accepted) → roots ⊆ all →
      (∀ r ∈ roots, ∃ ν, r.machine.heap.Known settings all ν) ∧
        ∃ ν, s.heap.Known settings all ν := by
  induction hh with
  | start => exact ⟨nofun, fun all _ _ => ⟨nofun, _, known_initial settings all⟩⟩
  | @run s roots fuel source _ ha ih =>
    obtain ⟨hroots, hknown⟩ := ih
    obtain ⟨ν, hν⟩ := (hknown roots hroots (List.Subset.refl _)).2
    have hr : (s.root fuel source).Accepted := ⟨Reading.legal source, ha.2.2, hν.outermost⟩
    refine ⟨fun r hmem => ?_, fun all hall hsub => ?_⟩
    · rcases List.mem_append.mp hmem with hmem | hmem
      · exact hroots r hmem
      · rw [List.mem_singleton.mp hmem]
        exact hr
    · obtain ⟨hstarts, ν, hν⟩ := hknown all hall fun r hmem => hsub (List.mem_append_left _ hmem)
      have hmem : s.root fuel source ∈ all :=
        hsub (List.mem_append_right _ (List.mem_singleton_self _))
      refine ⟨fun r hr => ?_, ?_⟩
      · rcases List.mem_append.mp hr with hr | hr
        · exact hstarts r hr
        · rw [List.mem_singleton.mp hr]
          exact ⟨ν, hν⟩
      · obtain ⟨-, ν', hl⟩ := Root.ends hall hb hmem hν
        rw [(Session.submit_of_accepts ha).1]
        exact ⟨ν', hl.known⟩
  | refuse fuel _ ha ih =>
    rw [(Session.submit_of_not_accepts ha).1]
    exact ih
  | forgive _ ih => exact ih
  | closeLog _ ih => exact ih

/-- Every evaluation that the programs of a history come to is known. -/
theorem known (hb : settings.lookup = .bound) (hh : History settings s roots) {v : Visit}
    (hv : Reached settings roots v) : ∃ ν, v.Known settings roots roots ν := by
  obtain ⟨hroots, hknown⟩ := hh.invariant hb
  exact hv.known hroots (List.Subset.refl _) hb (hknown roots hroots (List.Subset.refl _)).1

end History

end ClassScript
