import ClassScript.Proofs.Evaluation.Succession
import ClassScript.Proofs.Session.History
import Mathlib.Logic.Relation

/-!
# The order of time in a session

The visits that the programs of a session come to are ordered in time: of any two, one is
over before the other one starts (`Over`), or one leads to the other (`Reached.ordered`).

A *moment* is a heap with which a visit starts or ends, or that of the session when all
programs have run.  What the steps of all visits keep to, as a relation between heaps,
relates any two moments of a session, in one order or the other (`Moment.ordered`), and it
relates the end of a visit that is over to the start of the later one (`Over.lasting`).
-/

namespace ClassScript

open Resolution Run

section

variable (settings : Settings) (roots : List Root)

/-- The visit is that of a statement at the top level of a program. -/
def Visit.IsTop (v : Visit) : Prop :=
  ∃ r w w₁ w₂ m, r ∈ roots ∧ r.Comes settings w m ∧ w.parts = [w₁, w₂] ∧ v = r.visit w₁ m

/-- The first visit is over when the second one starts. -/
inductive Over : Visit → Visit → Prop where
  /-- They are parts of one visit. -/
  | part {v u u' : Visit} : Reached settings roots v → v.StartsThen settings u u' → Over u u'
  /-- They are statements of one program, one behind the other. -/
  | statement {r : Root} {w w₁ w₂ w₃ w₄ : Site} {m m' : Machine}
      {a : (r.visit w₁ m).code.Result} : r ∈ roots → r.Comes settings w m → w.parts = [w₁, w₂] →
      (r.visit w₁ m).run settings = .ok a m' → w₂.parts = [w₃, w₄] →
      Over (r.visit w₁ m) (r.visit w₃ m')
  /-- They belong to different programs. -/
  | program {earlier later : List Root} {u v : Visit} : roots = earlier ++ later →
      Reached settings earlier u → Reached settings later v → Over u v
  | inside {i : Nat} {u u' v : Visit} : Over u v → u.Starts settings i u' → Over u' v
  | into {i : Nat} {u v v' : Visit} : Over u v → v.Starts settings i v' → Over u v'
  | trans {u v v' : Visit} : Over u v → Over v v' → Over u v'

/-- The heap with which a program ends. -/
abbrev Root.lastHeap (r : Root) : Heap := (lastMachine (r.run settings)).heap

/-- The visit starts or ends with the heap. -/
def Visit.Bounds (v : Visit) (h : Heap) : Prop := h = v.heap ∨ h = v.lastHeap settings

/-- The heap is one that a visit starts or ends with, or what the session has now. -/
inductive Moment (s : Session) : Heap → Prop where
  | visit {v : Visit} {h : Heap} : Reached settings roots v → v.Bounds settings h → Moment s h
  | now : Moment s s.heap

/-- The relation holds between the start and the end of each visit. -/
structure Spans (R : Machine → Machine → Prop) : Prop where
  refl : ∀ m, R m m
  trans : ∀ {m₁ m₂ m₃}, R m₁ m₂ → R m₂ m₃ → R m₁ m₃
  visit : ∀ {v : Visit}, Reached settings roots v → R v.machine (lastMachine (v.run settings))

/-- The steps of all visits keep to the relation between heaps. -/
abbrev Lasting (R : Heap → Heap → Prop) : Prop :=
  LawOn settings (Reached settings roots) fun m m' => R m.heap m'.heap

end

variable {settings : Settings} {roots : List Root} {u v v' : Visit} {i : Nat}

theorem Run.LawOn.spans {R : Machine → Machine → Prop}
    (law : LawOn settings (Reached settings roots) R) : Spans settings roots R :=
  ⟨law.refl, law.trans, law.run⟩

/-- What is left of a program is a list of statements. -/
theorem Root.Comes.node {r : Root} {w : Site} {m : Machine} (hc : r.Comes settings w m) :
    ∃ body, w.node = .stmts body := by
  induction hc with
  | start => exact ⟨_, rfl⟩
  | @next w w₁ w₂ m m' a _ hp _ ih =>
    obtain ⟨body, hn⟩ := ih
    obtain ⟨context, names, node, state⟩ := w
    obtain rfl : node = .stmts body := hn
    cases body with
    | nil => cases hp
    | cons s rest =>
      cases hp
      exact ⟨rest, rfl⟩

/-- What all kinds of steps keep to. -/
theorem Run.StepLaw.lasting {R : Heap → Heap → Prop}
    (law : StepLaw fun m m' => R m.heap m'.heap) : Lasting settings roots R where
  toQuietLaw := law.toQuietLaw
  part := .step
  obeys _ := law.obeys _

namespace Spans

variable {R : Heap → Heap → Prop} (spans : Spans settings roots fun m m' => R m.heap m'.heap)
include spans

theorem same (h : Heap) : R h h := spans.refl ⟨h, 0, #[]⟩

theorem chain {h h' h'' : Heap} (hr : R h h') (hr' : R h' h'') : R h h'' := by
  have htrans : ∀ m₁ m₂ m₃ : Machine, R m₁.heap m₂.heap → R m₂.heap m₃.heap →
      R m₁.heap m₃.heap := fun _ _ _ => spans.trans
  exact htrans ⟨h, 0, #[]⟩ ⟨h', 0, #[]⟩ ⟨h'', 0, #[]⟩ hr hr'

end Spans

namespace Lasting

variable {R : Heap → Heap → Prop} (law : Lasting settings roots R)
include law

theorem same (h : Heap) : R h h := law.spans.same h

theorem chain {h h' h'' : Heap} (hr : R h h') (hr' : R h' h'') : R h h'' := law.spans.chain hr hr'

/-- A law relates the start of a visit to both of its ends, and both to the last one. -/
theorem bounds {h : Heap} (hv : Reached settings roots v) (hb : v.Bounds settings h) :
    R v.heap h ∧ R h (v.lastHeap settings) := by
  rcases hb with rfl | rfl
  · exact ⟨law.same _, law.run hv⟩
  · exact ⟨law.run hv, law.same _⟩

end Lasting

/-- A visit that completes leaves the heap of a moment. -/
theorem Moment.last {s : Session} {a : v.code.Result} {m : Machine} (hv : Reached settings roots v)
    (hr : v.run settings = .ok a m) : Moment settings roots s m.heap := by
  refine .visit hv (.inr ?_)
  rw [Visit.lastHeap, hr]
  rfl

/-! ## Visits are ordered -/

/-- Every visit lies in a statement at the top level. -/
theorem Reached.top (hv : Reached settings roots v) :
    ∃ t : Visit, t.IsTop settings roots ∧ t.Covers settings v := by
  induction hv with
  | @root r w w₁ w₂ m hr hc hp => exact ⟨_, ⟨r, w, w₁, w₂, m, hr, hc, hp, rfl⟩, .refl _⟩
  | step _ hs ih => exact ih.imp fun _ h => ⟨h.1, h.2.snoc hs trivial⟩

theorem Reached.covers (hv : Reached settings roots v) (hc : v.Covers settings u) :
    Reached settings roots u := by
  induction hc with
  | refl v => exact hv
  | step hs _ _ ih => exact ih (.step hv hs)

theorem Over.reached (ho : Over settings roots u v) :
    Reached settings roots u ∧ Reached settings roots v := by
  induction ho with
  | part hv h =>
    obtain ⟨i, hi⟩ := h.first
    obtain ⟨j, hj⟩ := h.second
    exact ⟨.step hv hi, .step hv hj⟩
  | statement hr hc hp hrun hp' => exact ⟨.root hr hc hp, .root hr (hc.next hp hrun) hp'⟩
  | program he hu hv =>
    subst he
    exact ⟨hu.mono (List.subset_append_left ..), hv.mono (List.subset_append_right ..)⟩
  | inside _ hs ih => exact ⟨.step ih.1 hs, ih.2⟩
  | into _ hs ih => exact ⟨ih.1, .step ih.2 hs⟩
  | trans _ _ ih ih' => exact ⟨ih.1, ih'.2⟩

theorem Over.covered (ho : Over settings roots u v) {u' : Visit} (hu : u.Covers settings u') :
    Over settings roots u' v := by
  induction hu with
  | refl u => exact ho
  | step hs _ _ ih => exact ih (ho.inside hs)

theorem Over.covers (ho : Over settings roots u v) (hv : v.Covers settings v') :
    Over settings roots u v' := by
  induction hv with
  | refl v => exact ho
  | step hs _ _ ih => exact ih (ho.into hs)

/-- One statement of a program is over, and this is what follows. -/
def Root.Next (settings : Settings) (r : Root) (s s' : Site × Machine) : Prop :=
  ∃ w₁ w₂, s.1.parts = [w₁, w₂] ∧ s'.1 = w₂ ∧
    ∃ a, (r.visit w₁ s.2).run settings = .ok a s'.2

theorem Root.Next.rightUnique (r : Root) : Relator.RightUnique (r.Next settings) := by
  intro s s' s'' ⟨w₁, w₂, hp, hw, a, hrun⟩ ⟨w₁', w₂', hp', hw', a', hrun'⟩
  obtain ⟨rfl, rfl⟩ : w₁ = w₁' ∧ w₂ = w₂' := by simpa using hp.symm.trans hp'
  have hm : s'.2 = s''.2 := by
    rw [hrun] at hrun'
    injection hrun'
  exact Prod.ext (hw.trans hw'.symm) hm

theorem Root.Comes.reflTransGen {r : Root} {w : Site} {m : Machine} (hc : r.Comes settings w m) :
    Relation.ReflTransGen (r.Next settings) (.top r.program, r.machine) (w, m) := by
  induction hc with
  | start => exact .refl
  | @next w w₁ w₂ m m' a _ hp hrun ih => exact ih.tail ⟨w₁, w₂, hp, rfl, a, hrun⟩

/-- A statement is over when one that follows starts. -/
theorem Root.Comes.follows {r : Root} (hr : r ∈ roots) {w w' w₁ w₂ w₁' w₂' : Site}
    {m m' : Machine} (hc : r.Comes settings w m)
    (h : Relation.ReflTransGen (r.Next settings) (w, m) (w', m')) (hp : w.parts = [w₁, w₂])
    (hp' : w'.parts = [w₁', w₂']) :
    r.visit w₁ m = r.visit w₁' m' ∨ Over settings roots (r.visit w₁ m) (r.visit w₁' m') := by
  generalize hs : (w, m) = s at h
  generalize hs' : (w', m') = s' at h
  induction h using Relation.ReflTransGen.head_induction_on generalizing w m w₁ w₂ with
  | refl =>
    cases hs'
    cases hs
    obtain ⟨rfl, -⟩ : w₁ = w₁' ∧ w₂ = w₂' := by simpa using hp.symm.trans hp'
    exact .inl rfl
  | @head a b hstep hrest ih =>
    subst hs hs'
    obtain ⟨w₃, m₃⟩ := b
    obtain ⟨w₁₁, w₂₂, hp₁, rfl, a, hrun⟩ := hstep
    obtain ⟨rfl, rfl⟩ : w₁ = w₁₁ ∧ w₂ = w₃ := by simpa using hp.symm.trans hp₁
    have hc' : r.Comes settings w₂ m₃ := hc.next hp hrun
    -- The statement that comes next is there, since `w'` has statements left.
    obtain ⟨w₄, w₅, hp₃⟩ : ∃ w₄ w₅, w₂.parts = [w₄, w₅] := by
      rcases hrest.cases_head with he | ⟨c, ⟨w₄, w₅, hp₃, -⟩, -⟩
      · cases he
        exact ⟨_, _, hp'⟩
      · exact ⟨w₄, w₅, hp₃⟩
    have hnext : Over settings roots (r.visit w₁ m) (r.visit w₄ m₃) := .statement hr hc hp hrun hp₃
    rcases ih hc' hp₃ rfl with he | ho
    · rw [← he]
      exact .inr hnext
    · exact .inr (hnext.trans ho)

/-- Of two statements at the top level, one is over before the other one starts. -/
theorem Visit.IsTop.ordered (hu : u.IsTop settings roots) (hv : v.IsTop settings roots) :
    u = v ∨ Over settings roots u v ∨ Over settings roots v u := by
  obtain ⟨r, w, w₁, w₂, m, hr, hc, hp, rfl⟩ := hu
  obtain ⟨r', w', w₁', w₂', m', hr', hc', hp', rfl⟩ := hv
  by_cases he : r = r'
  · subst he
    rcases Relation.ReflTransGen.total_of_right_unique (Root.Next.rightUnique r)
        hc.reflTransGen hc'.reflTransGen with h | h
    · exact (hc.follows hr h hp hp').imp id .inl
    · exact (hc'.follows hr h hp' hp).imp Eq.symm .inr
  · obtain ⟨earlier, later, rfl⟩ := List.append_of_mem hr
    have hmem : r' ∈ earlier ∨ r' ∈ later := by
      simpa [Ne.symm he] using hr'
    rcases hmem with hmem | hmem
    · exact .inr (.inr (.program rfl (.root hmem hc' hp') (.root (List.mem_cons_self ..) hc hp)))
    · exact .inr (.inl (.program (List.append_cons ..) (.root (by simp) hc hp)
        (.root hmem hc' hp')))

/-- Of two visits, one is over before the other one starts, or one leads to the other. -/
theorem Reached.ordered (hu : Reached settings roots u) (hv : Reached settings roots v) :
    Over settings roots u v ∨ Over settings roots v u ∨ u.Covers settings v ∨
      v.Covers settings u := by
  induction hu with
  | @root r w w₁ w₂ m hr hc hp =>
    obtain ⟨t, ht, hcovers⟩ := hv.top
    have hu : (r.visit w₁ m).IsTop settings roots := ⟨r, w, w₁, w₂, m, hr, hc, hp, rfl⟩
    rcases hu.ordered ht with rfl | ho | ho
    · exact .inr (.inr (.inl hcovers))
    · exact .inl (ho.covers hcovers)
    · exact .inr (.inl (ho.covered hcovers))
  | @step i p u hp hs ih =>
    rcases ih with ho | ho | hcovers | hcovers
    · exact .inl (ho.inside hs)
    · exact .inr (.inl (ho.into hs))
    · cases hcovers with
      | refl => exact .inr (.inr (.inr (.step hs trivial (.refl u))))
      | step hs' _ hq =>
        -- Both lie in parts of the same visit.
        rcases hs.ordered hs' with rfl | h | h
        · exact .inr (.inr (.inl hq))
        · exact .inl ((Over.part hp h).covers hq)
        · exact .inr (.inl ((Over.part hp h).covered hq))
    · exact .inr (.inr (.inr (hcovers.snoc hs trivial)))

/-! ## Programs -/

section

variable {R : Machine → Machine → Prop} (spans : Spans settings roots R)
  {r : Root} {w w₁ w₂ : Site} {m : Machine} (hr : r ∈ roots)

/-- What is left of a program runs a statement and then what is left behind it. -/
theorem Root.Comes.program_eq (hc : r.Comes settings w m) (hp : w.parts = [w₁, w₂]) :
    ∃ program program', w.resolved = .stmts program ∧ w₂.resolved = .stmts program' ∧
      Run.program settings r.fuel program m =
        match (r.visit w₁ m).run settings with
        | .ok _ m' => Run.program settings r.fuel program' m'
        | .error e m' => .error e m' := by
  obtain ⟨body, hn⟩ := hc.node
  cases body with
  | nil =>
    obtain ⟨context, names, node, state⟩ := w
    obtain rfl : node = .stmts [] := hn
    cases hp
  | cons s rest =>
    obtain ⟨u₁, u₂, program, program', hu, -, hprogram, hprogram', hsteps⟩ := r.program_cons hn
    obtain ⟨rfl, htail⟩ := List.cons.inj (hu.symm.trans hp)
    obtain ⟨rfl, -⟩ := List.cons.inj htail
    exact ⟨program, program', hprogram, hprogram', hsteps settings m⟩

/-- What is left of a program ends like the program. -/
theorem Root.Comes.run_eq (hc : r.Comes settings w m) :
    ∃ program, w.resolved = .stmts program ∧
      Run.program settings r.fuel program m = r.run settings := by
  induction hc with
  | start => exact ⟨_, rfl, rfl⟩
  | @next w w₁ w₂ m m' a hc hp hrun ih =>
    obtain ⟨program, hprogram, hrest⟩ := ih
    obtain ⟨left, left', hleft, hleft', hsteps⟩ := hc.program_eq hp
    obtain rfl := Node.stmts.inj (hprogram.symm.trans hleft)
    rw [show (r.visit w₁ m).run settings = .ok a m' from hrun] at hsteps
    exact ⟨left', hleft', hsteps.symm.trans hrest⟩

/-- A statement that fails ends its program. -/
theorem Root.Comes.run_error (hc : r.Comes settings w m) (hp : w.parts = [w₁, w₂]) {e : Abort}
    {m' : Machine} (hrun : (r.visit w₁ m).run settings = .error e m') :
    r.run settings = .error e m' := by
  obtain ⟨program, hprogram, hrest⟩ := hc.run_eq
  obtain ⟨left, left', hleft, -, hsteps⟩ := hc.program_eq hp
  obtain rfl := Node.stmts.inj (hprogram.symm.trans hleft)
  rw [hrun] at hsteps
  exact hrest.symm.trans hsteps

include spans hr

/-- From the start of a program to each of its statements. -/
theorem Root.Comes.spans_start (hc : r.Comes settings w m) : R r.machine m := by
  induction hc with
  | start => exact spans.refl _
  | @next w w₁ w₂ m m' a hc hp hrun ih =>
    have hlast := spans.visit (.root hr hc hp)
    rw [show (r.visit w₁ m).run settings = .ok a m' from hrun] at hlast
    exact spans.trans ih hlast

/-- From what is left of a program to its end. -/
theorem Root.Comes.spans_last (hc : r.Comes settings w m) : R m (lastMachine (r.run settings)) := by
  obtain ⟨body, hn⟩ := hc.node
  induction body generalizing w m with
  | nil =>
    obtain ⟨program, hprogram, hrun⟩ := hc.run_eq
    obtain ⟨context, names, node, state⟩ := w
    obtain rfl : node = .stmts [] := hn
    obtain rfl := Node.stmts.inj hprogram
    rw [← hrun]
    exact spans.refl m
  | cons s rest ih =>
    obtain ⟨w₁, w₂, -, -, hp, hn', -⟩ := r.program_cons hn
    have hlast := spans.visit (.root hr hc hp)
    cases hrun : (r.visit w₁ m).run settings with
    | error e m' =>
      rw [hrun] at hlast
      rw [hc.run_error hp hrun]
      exact hlast
    | ok a m' =>
      rw [hrun] at hlast
      exact spans.trans hlast (ih (hc.next hp hrun) hn')

/-- From the end of a statement of a program to the end of the program. -/
theorem Root.Comes.spans_rest (hc : r.Comes settings w m) (hp : w.parts = [w₁, w₂]) :
    R (lastMachine ((r.visit w₁ m).run settings)) (lastMachine (r.run settings)) := by
  cases hrun : (r.visit w₁ m).run settings with
  | error e m' =>
    rw [hc.run_error hp hrun]
    exact spans.refl m'
  | ok a m' => exact (hc.next hp hrun).spans_last spans hr

end

section

variable {all : List Root} {R : Heap → Heap → Prop} (law : Lasting settings all R)
  (hsub : roots ⊆ all)
include law hsub

/-- A law relates the start of some program to each visit, and the end of the visit to that of
the program. -/
theorem Reached.root_lasting (hv : Reached settings roots v) :
    ∃ r ∈ roots, R r.machine.heap v.heap ∧ R (v.lastHeap settings) (r.lastHeap settings) := by
  induction hv with
  | @root r w w₁ w₂ m hr hc hp =>
    exact ⟨r, hr, hc.spans_start law.spans (hsub hr), hc.spans_rest law.spans (hsub hr) hp⟩
  | step hv hs ih =>
    obtain ⟨r, hr, hstart, hlast⟩ := ih
    have hv' := hv.mono hsub
    exact ⟨r, hr, law.trans hstart (law.starts hv' hs).2, law.trans (law.rest hv' hs) hlast⟩

end

/-- The programs of a history follow each other, in their order. -/
theorem History.spans {s : Session} (hh : History settings s roots) {all : List Root}
    {R : Heap → Heap → Prop} (spans : Spans settings all fun m m' => R m.heap m'.heap)
    (hsub : roots ⊆ all) :
    (∀ r ∈ roots, R .initial r.machine.heap ∧ R (r.lastHeap settings) s.heap) ∧
      roots.Pairwise (fun r r' => R (r.lastHeap settings) r'.machine.heap) ∧
      R .initial s.heap := by
  induction hh with
  | start => exact ⟨by simp, .nil, spans.same _⟩
  | @run s roots fuel source _ ha ih =>
    obtain ⟨hends, hpairs, hnow⟩ := ih fun r hr => hsub (List.mem_append_left _ hr)
    have hr : s.root fuel source ∈ all :=
      hsub (List.mem_append_right _ (List.mem_singleton_self _))
    have hrun : R s.heap ((s.root fuel source).lastHeap settings) :=
      Root.Comes.start.spans_last spans hr
    rw [(Session.submit_of_accepts ha).1]
    refine ⟨fun r hmem => ?_, ?_, spans.chain hnow hrun⟩
    · rcases List.mem_append.mp hmem with hmem | hmem
      · exact ⟨(hends r hmem).1, spans.chain (hends r hmem).2 hrun⟩
      · obtain rfl := List.mem_singleton.mp hmem
        exact ⟨hnow, spans.same _⟩
    · refine List.pairwise_append.mpr
        ⟨hpairs, List.pairwise_singleton .., fun r hmem r' hmem' => ?_⟩
      obtain rfl := List.mem_singleton.mp hmem'
      exact (hends r hmem).2
  | refuse fuel _ ha ih =>
    rw [(Session.submit_of_not_accepts ha).1]
    exact ih hsub
  | forgive _ ih => exact ih hsub
  | closeLog _ ih => exact ih hsub

/-- A program starts with the heap that those before it leave. -/
theorem History.before {s : Session} (hh : History settings s roots) {earlier later : List Root}
    {r : Root} (he : roots = earlier ++ r :: later) :
    ∃ s', History settings s' earlier ∧ r.machine.heap = s'.heap := by
  induction hh generalizing later with
  | start => simp at he
  | @run s roots fuel source hh _ ih =>
    rcases List.eq_nil_or_concat later with rfl | ⟨later, r', rfl⟩
    · obtain ⟨rfl, hr⟩ := List.append_inj' he rfl
      obtain rfl : s.root fuel source = r := by simpa using hr
      exact ⟨s, hh, rfl⟩
    · rw [List.concat_eq_append, ← List.cons_append, ← List.append_assoc] at he
      exact ih (List.append_inj' he rfl).1
  | refuse _ _ _ ih => exact ih he
  | forgive _ ih => exact ih he
  | closeLog _ ih => exact ih he

/-! ## Moments -/

section

variable {s : Session} (hh : History settings s roots) {R : Heap → Heap → Prop}
  (law : Lasting settings roots R)
include hh law

/-- A law relates the end of a visit that is over to the start of a later one. -/
theorem Over.lasting (ho : Over settings roots u v) : R (u.lastHeap settings) v.heap := by
  induction ho with
  | part hv h => exact law.between hv h
  | @statement r w w₁ w₂ w₃ w₄ m m' a hr hc hp hrun hp' =>
    rw [Visit.lastHeap, hrun]
    exact law.refl m'
  | @program earlier later u v he hu hv =>
    obtain ⟨r, hr, -, hlast⟩ := hu.root_lasting law (he ▸ List.subset_append_left ..)
    obtain ⟨r', hr', hstart, -⟩ := hv.root_lasting law (he ▸ List.subset_append_right ..)
    have hpairs := (hh.spans law.spans (List.Subset.refl _)).2.1
    rw [he] at hpairs
    exact law.chain hlast (law.chain ((List.pairwise_append.mp hpairs).2.2 r hr r' hr') hstart)
  | inside ho hs ih => exact law.chain (law.rest ho.reached.1 hs) ih
  | into ho hs ih => exact law.chain ih (law.starts ho.reached.2 hs).2
  | trans ho _ ih ih' => exact law.chain ih (law.chain (law.run ho.reached.2) ih')

/-- A law relates the first heap to all moments, and all moments to the last one. -/
theorem Moment.lasting {h : Heap} (hm : Moment settings roots s h) : R .initial h ∧ R h s.heap := by
  have hl := hh.spans law.spans (List.Subset.refl _)
  cases hm with
  | now => exact ⟨hl.2.2, law.same _⟩
  | visit hv hb =>
    obtain ⟨r, hr, hstart, hlast⟩ := hv.root_lasting law (List.Subset.refl _)
    obtain ⟨hfirst, hnow⟩ := hl.1 r hr
    obtain ⟨hin, hout⟩ := law.bounds hv hb
    exact ⟨law.chain (law.chain hfirst hstart) hin, law.chain hout (law.chain hlast hnow)⟩

omit hh in
theorem Visit.Covers.ordered (hc : u.Covers settings v) (hu : Reached settings roots u)
    {h h' : Heap} (hb : u.Bounds settings h) (hb' : v.Bounds settings h') : R h h' ∨ R h' h := by
  obtain ⟨hv, hin⟩ := law.leads hu hc
  have hbounds := law.bounds hv hb'
  rcases hb with rfl | rfl
  · exact .inl (law.chain hin hbounds.1)
  · exact .inr (law.chain hbounds.2 (law.leads_rest hu hc))

/-- A law relates any two moments, in one order or the other. -/
theorem Moment.ordered {h h' : Heap} (hm : Moment settings roots s h)
    (hm' : Moment settings roots s h') : R h h' ∨ R h' h := by
  cases hm with
  | now => exact .inr (hm'.lasting hh law).2
  | @visit u _ hu hb =>
    cases hm' with
    | now => exact .inl (Moment.lasting hh law (.visit hu hb)).2
    | @visit v _ hv hb' =>
      rcases hu.ordered hv with ho | ho | hc | hc
      · exact .inl (law.chain (law.bounds hu hb).2
          (law.chain (ho.lasting hh law) (law.bounds hv hb').1))
      · exact .inr (law.chain (law.bounds hv hb').2
          (law.chain (ho.lasting hh law) (law.bounds hu hb).1))
      · exact hc.ordered law hu hb hb'
      · exact (hc.ordered law hv hb' hb).symm

end

end ClassScript
