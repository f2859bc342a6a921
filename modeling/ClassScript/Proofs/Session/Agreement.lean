import ClassScript.Proofs.Scope.Agreement
import ClassScript.Proofs.Session.History

/-!
# Sessions with lookup by name

A session of ordered programs goes the same way, whether references are looked up by
their distances or by their names (`History.byName`).
-/

namespace ClassScript

open Resolution Run

section

variable {settings : Settings} {roots runs : List Root} {ν : Naming} {r : Root} {w : Site}
  {m : Machine} (hroots : ∀ r ∈ roots, r.Accepted) (hsub : runs ⊆ roots)
  (hb : settings.lookup = .bound) (hordered : ∀ r ∈ roots, r.program.ordered = true)
include hroots hsub hb hordered

/-- What is left of a program runs the same way. -/
theorem Root.Comes.program_byName (hr : r ∈ runs) {body : List (Stmt Unit)}
    (hc : r.Comes settings w m) (hn : w.node = .stmts body)
    (hk : m.heap.Known settings roots ν) :
    ∃ program, w.resolved = .stmts program ∧
      Run.program settings.byName r.fuel program m = Run.program settings r.fuel program m := by
  induction body generalizing w m ν with
  | nil =>
    obtain ⟨context, names, node, state⟩ := w
    obtain rfl : node = .stmts [] := hn
    exact ⟨[], rfl, rfl⟩
  | cons s rest ih =>
    obtain ⟨w₁, w₂, program, program', hp, hn', hprogram, hprogram', hsteps⟩ := r.program_cons hn
    have hv := Root.visit_known hroots hsub hr hc hp hk
    have hend := hv.run hroots hsub hb r.fuel (r.visit w₁ m) ν rfl
    have hsame : (r.visit w₁ m).run settings.byName = (r.visit w₁ m).run settings :=
      hv.run_byName hroots hsub hb hordered r.fuel (r.visit w₁ m) ν rfl
    refine ⟨program, hprogram, ?_⟩
    rw [hsteps, hsteps, hsame]
    cases hrun : (r.visit w₁ m).run settings with
    | error e m' => rfl
    | ok c m' =>
      rw [hrun] at hend
      obtain ⟨ν', hl, -⟩ := hend
      obtain ⟨rest', hrest', heq⟩ := ih (hc.next hp hrun) hn' hl.known
      obtain rfl := Node.stmts.inj (hprogram'.symm.trans hrest')
      exact heq

omit hsub in
theorem Root.run_byName (hr : r ∈ roots) (hk : r.machine.heap.Known settings roots ν) :
    r.run settings.byName = r.run settings := by
  have hc : r.Comes settings (.top r.program) r.machine := .start
  obtain ⟨program, hprogram, hsame⟩ :=
    hc.program_byName hroots (List.Subset.refl _) hb hordered hr rfl hk
  have he : (Resolution.ofProgram r.program).program = program := Node.stmts.inj hprogram
  unfold Root.run
  rw [he]
  exact hsame

end

/-! ## Sessions -/

/-- A session answers the same way if the run of an accepted program is the same. -/
theorem Session.submit_congr {settings settings' : Settings} {fuel : Nat} {s : Session}
    {source : String} (hverbosity : settings'.verbosity = settings.verbosity)
    (hrun : s.Accepts source →
      (s.root fuel source).run settings' = (s.root fuel source).run settings) :
    s.submit settings' fuel source = s.submit settings fuel source := by
  have hnote : ∀ level line, note settings' level line = note settings level line := by
    intro level line
    simp [note, hverbosity]
  unfold submit resolveAndRun Session.run
  dsimp only
  split
  · rfl
  · rename_i hread
    have hread' : s.hadError = false ∧ (Reading.ofSource source).diagnostics = [] := by
      simpa [List.isEmpty_iff] using hread
    split
    · rename_i hresolve
      have hsame := hrun ⟨hread'.1, hread'.2, List.isEmpty_iff.mp hresolve⟩
      unfold Root.run root at hsame
      simp only [hnote, hsame]
    · simp only [hnote]

namespace History

variable {settings : Settings} {s : Session} {roots : List Root}

theorem submit_byName (hb : settings.lookup = .bound) (hh : History settings s roots)
    (hordered : ∀ r ∈ roots, r.program.ordered = true) (fuel : Nat) {source : String}
    (hsource : s.Accepts source → (Reading.ofSource source).program.ordered = true) :
    s.submit settings.byName fuel source = s.submit settings fuel source := by
  refine Session.submit_congr rfl fun ha => ?_
  obtain ⟨hroots, hknown⟩ := (hh.run fuel ha).invariant hb
  have hr : s.root fuel source ∈ roots ++ [s.root fuel source] := by simp
  obtain ⟨ν, hν⟩ := (hknown _ hroots (List.Subset.refl _)).1 _ hr
  refine Root.run_byName hroots hb (fun r hmem => ?_) hr hν
  rcases List.mem_append.mp hmem with hmem | hmem
  · exact hordered r hmem
  · rw [List.mem_singleton.mp hmem]
    exact hsource ha

/-- In a session of ordered programs both ways to look names up come to the same
sessions, and each text is answered the same way: with the same events, the same
heap and the same reason to abandon it, if any. -/
theorem byName (hb : settings.lookup = .bound) (hh : History settings s roots)
    (hordered : ∀ r ∈ roots, r.program.ordered = true) :
    History settings.byName s roots ∧ ∀ (fuel : Nat) (source : String),
      (s.Accepts source → (Reading.ofSource source).program.ordered = true) →
        s.submit settings.byName fuel source = s.submit settings fuel source := by
  refine ⟨?_, fun fuel source hsource => hh.submit_byName hb hordered fuel hsource⟩
  induction hh with
  | start => exact .start
  | @run s roots fuel source hh ha ih =>
    have hbefore : ∀ r ∈ roots, r.program.ordered = true := fun r hr =>
      hordered r (List.mem_append_left _ hr)
    have hsource : (Reading.ofSource source).program.ordered = true :=
      hordered (s.root fuel source) (by simp)
    rw [← hh.submit_byName hb hbefore fuel fun _ => hsource]
    exact .run fuel (ih hbefore) ha
  | @refuse s roots fuel source hh ha ih =>
    rw [← hh.submit_byName hb hordered fuel fun h => absurd h ha]
    exact .refuse fuel (ih hordered) ha
  | forgive _ ih => exact .forgive (ih hordered)
  | closeLog _ ih => exact .closeLog (ih hordered)

/-- A function that lives on from one program to the next reads its parameter. -/
theorem byName_keep :
    ∃ s roots source, History (.standard 0 fun _ => 0) s roots ∧ s.Accepts source ∧
      (s.submit (.standard 0 fun _ => 0) 40 source).events = [.printed "true"] ∧
      History (Settings.byName (.standard 0 fun _ => 0)) s roots ∧
      s.submit (Settings.byName (.standard 0 fun _ => 0)) 40 source =
        s.submit (.standard 0 fun _ => 0) 40 source := by
  let first := "fun keep(a) \x7b return fun () \x7b return a; \x7d; \x7d var f = keep(true);"
  let s := (Session.start.submit (.standard 0 fun _ => 0) 40 first).session
  have hfirst : Session.start.Accepts first := by
    unfold Session.Accepts
    decide +kernel
  have ha : s.Accepts "print f();" := by
    unfold Session.Accepts
    decide +kernel
  have hh : History (.standard 0 fun _ => 0) s [Session.start.root 40 first] :=
    .run 40 .start hfirst
  have hordered : ∀ r ∈ [Session.start.root 40 first], r.program.ordered = true := by
    intro r hr
    rw [List.mem_singleton.mp hr]
    decide +kernel
  have hsource : (Reading.ofSource "print f();").program.ordered = true := by decide +kernel
  obtain ⟨hbyName, hsame⟩ := byName rfl hh hordered
  exact ⟨s, _, "print f();", hh, ha, by decide +kernel, hbyName, hsame 40 _ fun _ => hsource⟩

/-- The two ways differ where a function refers to a name that its scope declares
only behind it. -/
example :
    let source := "var a = true; \x7b fun f() \x7b print a; \x7d var a = nil; f(); \x7d"
    (Session.start.submit (.standard 0 fun _ => 0) 40 source).events = [.printed "true"] ∧
      (Session.start.submit (Settings.byName (.standard 0 fun _ => 0)) 40 source).events =
        [.printed "nil"] := by
  decide +kernel

end History

end ClassScript
