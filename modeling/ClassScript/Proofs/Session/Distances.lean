import ClassScript.Proofs.Scope.Stretches
import ClassScript.Proofs.Session.History

/-!
# The table of distances

A session keeps what was recorded of the references of all programs that it ever resolved, the
rejected ones included.  The table of distances says which occurrence each of these records is
about: that at a position in the program of a number (`distanceTable`).

No two entries are about one occurrence, and each distance leads to the innermost open scope with
the name (`Tabulates`).  Entries of one program have that program's number, so a program that is
resolved later adds entries behind all others and touches none of them, and what a function refers
to is what the table says of its occurrences in whatever step it is evaluated
(`Session.Resolves.keepsDistances`).
-/

namespace ClassScript

open Resolution

/-! ## The table -/

/-- What was recorded of an occurrence, which is told by the number of its program and by its
position there. -/
structure TableEntry where
  /-- The number of the program. -/
  program : Nat
  /-- The position of the occurrence. -/
  position : Position
  /-- What was recorded. -/
  reference : LocalReference
deriving DecidableEq, Repr

/-- The entries of a program of the given number. -/
def programTable (k : Nat) (p : Program Unit) : List TableEntry :=
  (programOccurrences (Resolution.ofProgram p).program).filterMap fun o =>
    o.record?.map (⟨k, o.position, ·⟩)

/-- The entries of some programs, which are numbered from `k` on. -/
def distanceTableFrom : (k : Nat) → List (Program Unit) → List TableEntry
  | _, [] => []
  | k, p :: rest => programTable k p ++ distanceTableFrom (k + 1) rest

/-- The entries of programs that were resolved one after another. -/
def distanceTable (programs : List (Program Unit)) : List TableEntry := distanceTableFrom 0 programs

theorem distanceTableFrom_append (k : Nat) (programs more : List (Program Unit)) :
    distanceTableFrom k (programs ++ more) =
      distanceTableFrom k programs ++ distanceTableFrom (k + programs.length) more := by
  induction programs generalizing k with
  | nil => rfl
  | cons p rest ih =>
    rw [List.cons_append, distanceTableFrom, distanceTableFrom, ih, List.append_assoc,
      List.length_cons, Nat.add_right_comm, Nat.add_assoc k]

theorem mem_distanceTableFrom {k : Nat} {programs : List (Program Unit)} {entry : TableEntry} :
    entry ∈ distanceTableFrom k programs ↔
      ∃ (i : Nat) (p : Program Unit), programs[i]? = some p ∧ entry ∈ programTable (k + i) p := by
  induction programs generalizing k with
  | nil => exact ⟨nofun, fun ⟨_, _, h, _⟩ => nomatch h⟩
  | cons p rest ih =>
    have hnext (i : Nat) : k + 1 + i = k + (i + 1) := Nat.succ_add_eq_add_succ k i
    rw [distanceTableFrom, List.mem_append, ih]
    constructor
    · rintro (h | ⟨i, p', hi, h⟩)
      · exact ⟨0, p, rfl, h⟩
      · exact ⟨i + 1, p', hi, hnext i ▸ h⟩
    · rintro ⟨i, p', hi, h⟩
      cases i with
      | zero =>
        obtain rfl : p = p' := Option.some.inj hi
        exact .inl h
      | succ i => exact .inr ⟨i, p', hi, (hnext i).symm ▸ h⟩

/-- What the entries of a program say of its occurrences as resolution leaves them. -/
theorem mem_programTable {k : Nat} {p : Program Unit} {entry : TableEntry} :
    entry ∈ programTable k p ↔ entry.program = k ∧
      ∃ o ∈ programOccurrences (Resolution.ofProgram p).program,
        o.position = entry.position ∧ o.record? = some entry.reference := by
  rw [programTable, List.mem_filterMap]
  constructor
  · rintro ⟨o, ho, h⟩
    obtain ⟨reference, hr, rfl⟩ := Option.map_eq_some_iff.mp h
    exact ⟨rfl, o, ho, rfl, hr⟩
  · rintro ⟨rfl, o, ho, hp, hr⟩
    refine ⟨o, ho, ?_⟩
    rw [hr, hp]
    rfl

section

variable {k : Nat} {p : Program Unit} (hp : legalStmts p)
include hp

/-- What was recorded of a program is what its entries say, in the same order. -/
theorem references_programTable :
    (programTable k p).map TableEntry.reference = (Resolution.ofProgram p).references.toList := by
  rw [references_ofProgram hp, programTable, records, List.map_filterMap]
  refine List.filterMap_congr fun o _ => ?_
  cases o.record? <;> rfl

theorem apart_ofProgram : Apart (programOccurrences (Resolution.ofProgram p).program) := by
  rw [programOccurrences_ofProgram hp]
  exact List.pairwise_map.mpr (apart_programOccurrences p)

/-- No two entries of a program have one position. -/
theorem pairwise_programTable :
    (programTable k p).Pairwise fun entry entry' => entry.position ≠ entry'.position := by
  rw [programTable, programOccurrences_ofProgram hp, List.pairwise_filterMap, List.pairwise_map]
  refine (apart_programOccurrences p).imp fun hne entry h entry' h' => ?_
  obtain ⟨_, _, rfl⟩ := Option.map_eq_some_iff.mp h
  obtain ⟨_, _, rfl⟩ := Option.map_eq_some_iff.mp h'
  exact hne

end

/-! ## What the table says -/

/-- The table says of the programs which scopes their references were bound to. -/
structure Tabulates (programs : List (Program Unit)) (table : List TableEntry) : Prop where
  /-- Each reference of a program is one occurrence, and each has a position of its own. -/
  occurrences : ∀ p ∈ programs, Apart (programOccurrences p) ∧
    ∀ position m, RefersAt (topSpots p) position m ↔
      ∃ o ∈ programOccurrences p, o.position = position ∧ o.toMention = m
  /-- No two entries are about the same occurrence. -/
  unique : table.Pairwise fun entry entry' =>
    ¬ (entry.program = entry'.program ∧ entry.position = entry'.position)
  /-- The distance is that of the innermost open scope which has the name. -/
  innermost : ∀ entry ∈ table, ∃ p o, programs[entry.program]? = some p ∧
    o ∈ programOccurrences p ∧ o.position = entry.position ∧
    o.kind = entry.reference.kind ∧ o.name = entry.reference.name ∧
    Innermost o.name.text o.scopes entry.reference.distance
  /-- A reference has an entry if some open scope has its name. -/
  recorded : ∀ (k : Nat) p, programs[k]? = some p → ∀ o ∈ programOccurrences p,
    (∃ entry ∈ table, entry.program = k ∧ entry.position = o.position) ↔
      ∃ names ∈ o.scopes, o.name.text ∈ names

theorem mem_distanceTable {programs : List (Program Unit)} {entry : TableEntry} :
    entry ∈ distanceTable programs ↔ ∃ p, programs[entry.program]? = some p ∧
      ∃ o ∈ programOccurrences (Resolution.ofProgram p).program,
        o.position = entry.position ∧ o.record? = some entry.reference := by
  rw [distanceTable, mem_distanceTableFrom]
  constructor
  · rintro ⟨i, p, hi, h⟩
    obtain ⟨hk, h⟩ := mem_programTable.mp h
    rw [Nat.zero_add] at hk
    exact ⟨p, hk ▸ hi, h⟩
  · rintro ⟨p, hi, h⟩
    exact ⟨_, p, hi, mem_programTable.mpr ⟨(Nat.zero_add _).symm, h⟩⟩

section

variable {programs : List (Program Unit)} (hlegal : ∀ p ∈ programs, legalStmts p)
include hlegal

theorem references_distanceTableFrom (k : Nat) :
    (distanceTableFrom k programs).map TableEntry.reference =
      programs.flatMap fun p => (Resolution.ofProgram p).references.toList := by
  induction programs generalizing k with
  | nil => rfl
  | cons p rest ih =>
    obtain ⟨hp, hrest⟩ := List.forall_mem_cons.mp hlegal
    rw [distanceTableFrom, List.map_append, references_programTable hp, ih hrest, List.flatMap_cons]

theorem pairwise_distanceTableFrom (k : Nat) :
    (distanceTableFrom k programs).Pairwise fun entry entry' =>
      ¬ (entry.program = entry'.program ∧ entry.position = entry'.position) := by
  induction programs generalizing k with
  | nil => exact .nil
  | cons p rest ih =>
    obtain ⟨hp, hrest⟩ := List.forall_mem_cons.mp hlegal
    refine List.pairwise_append.mpr ⟨(pairwise_programTable hp).imp fun hne h => hne h.2,
      ih hrest _, fun entry h entry' h' he => ?_⟩
    obtain ⟨i, _, _, h'⟩ := mem_distanceTableFrom.mp h'
    have hk := (mem_programTable.mp h).1
    have hk' := (mem_programTable.mp h').1
    omega

/-- The table says of an occurrence what was recorded of it. -/
theorem mem_distanceTable_iff {k : Nat} {p : Program Unit} (hk : programs[k]? = some p)
    {o : Occurrence Binding} (ho : o ∈ programOccurrences (Resolution.ofProgram p).program)
    {r : LocalReference} : ⟨k, o.position, r⟩ ∈ distanceTable programs ↔ o.record? = some r := by
  rw [mem_distanceTable]
  constructor
  · rintro ⟨p', hk', o', ho', hposition, hr⟩
    obtain rfl : p = p' := Option.some.inj (hk.symm.trans hk')
    have hapart := apart_ofProgram (hlegal p (List.mem_of_getElem? hk))
    rwa [hapart.eq_of_position ho' ho hposition] at hr
  · exact fun hr => ⟨p, hk, o, ho, rfl, hr⟩

theorem tabulates_distanceTable : Tabulates programs (distanceTable programs) where
  occurrences p _ := ⟨apart_programOccurrences p,
    fun position m => (exists_mem_programOccurrences p position m).symm⟩
  unique := pairwise_distanceTableFrom hlegal 0
  innermost entry h := by
    obtain ⟨p, hp, o', ho', hposition, hr⟩ := mem_distanceTable.mp h
    rw [programOccurrences_ofProgram (hlegal p (List.mem_of_getElem? hp))] at ho'
    obtain ⟨o, ho, rfl⟩ := List.mem_map.mp ho'
    obtain ⟨hkind, hname, hbinding⟩ := Mention.record?_eq_some.mp hr
    exact ⟨p, o, hp, ho, hposition, hkind, hname, innermost_of_closest hbinding⟩
  recorded k p hp o ho := by
    have hmem : o.bound ∈ programOccurrences (Resolution.ofProgram p).program := by
      rw [programOccurrences_ofProgram (hlegal p (List.mem_of_getElem? hp))]
      exact List.mem_map_of_mem ho
    rw [← o.exists_record?_bound]
    constructor
    · rintro ⟨⟨_, _, r⟩, h, rfl, rfl⟩
      exact ⟨r, (mem_distanceTable_iff hlegal hp hmem).mp h⟩
    · rintro ⟨r, hr⟩
      exact ⟨_, (mem_distanceTable_iff hlegal hp hmem).mpr hr, rfl, rfl⟩

end

/-- The references in the node of the site are those that stand at the position in the program of
the given number.  They are in the scopes that the walk had open there, and they are bound as the
table says of them. -/
structure Site.StandsAt (programs : List (Program Unit)) (table : List TableEntry) (w : Site)
    (k : Nat) (position : Position) (scopes : OpenScopes) (i : Nat) : Prop where
  stretch : ∃ p, programs[k]? = some p ∧ Within p w ∧
    Stretch (w.resolved.occurrences scopes i) position
      (programOccurrences (Resolution.ofProgram p).program)
  opened : Opened w.context.enclosingClass scopes w.scopes
  bound : ∀ o ∈ w.resolved.occurrences scopes i, ∀ d, o.binding = .local d ↔
    ⟨k, position ++ o.position, ⟨o.kind, o.name, d⟩⟩ ∈ table

/-- The table tells the bindings of the references at the site. -/
def Site.Follows (programs : List (Program Unit)) (table : List TableEntry) (w : Site) : Prop :=
  ∃ k position scopes i, w.StandsAt programs table k position scopes i

/-- The table of some programs and more tells the bindings at the sites of the first ones. -/
theorem Within.follows {programs : List (Program Unit)} {p : Program Unit} {w : Site}
    (hw : Within p w) (hmem : p ∈ programs) (ha : (Resolution.ofProgram p).diagnostics = [])
    {more : List (Program Unit)} (hlegal : ∀ p ∈ programs ++ more, legalStmts p) :
    w.Follows programs (distanceTable (programs ++ more)) := by
  have hl := hlegal p (List.mem_append_left _ hmem)
  obtain ⟨scopes, hopened, i, position, hstretch⟩ := hw.located hl ha
  obtain ⟨k, hk⟩ := List.getElem?_of_mem hmem
  refine ⟨k, position, scopes, i, ⟨p, hk, hw, hstretch⟩, hopened, fun o ho d => ?_⟩
  have hk' : (programs ++ more)[k]? = some p := by
    rw [List.getElem?_append_left (List.getElem?_eq_some_iff.mp hk).1, hk]
  have hentry := mem_distanceTable_iff hlegal hk' (hstretch.mem ho) (r := ⟨o.kind, o.name, d⟩)
  refine Iff.trans ?_ hentry.symm
  exact ⟨fun hd => Mention.record?_eq_some.mpr ⟨rfl, rfl, hd⟩,
    fun he => (Mention.record?_eq_some.mp he).2.2⟩

/-! ## What a session resolves -/

namespace Session

variable {settings : Settings} {fuel : Nat} {s s' s'' : Session} {source : String}
  {resolved later : List Root}

/-- Whether a session comes to resolve the program of a text. -/
def Reads (s : Session) (source : String) : Prop :=
  s.hadError = false ∧ (Reading.ofSource source).diagnostics = []

theorem accepts_iff_reads : s.Accepts source ↔
    s.Reads source ∧ (Resolution.ofProgram (Reading.ofSource source).program).diagnostics = [] :=
  and_assoc.symm

theorem references_run (settings : Settings) (fuel : Nat) (s : Session)
    (program : Program Binding) :
    (run settings fuel s program).session.references = s.references := by
  unfold run
  split
  · rfl
  · dsimp only
    split <;> rfl

theorem references_submit_of_reads (h : s.Reads source) :
    (s.submit settings fuel source).session.references =
      s.references ++ (Resolution.ofProgram (Reading.ofSource source).program).references := by
  obtain ⟨herror, hread⟩ := h
  unfold submit resolveAndRun precede
  simp only [herror, hread, List.isEmpty_nil, Bool.not_true, Bool.or_self, Bool.false_eq_true,
    if_false]
  split
  · rw [references_run]
  · rfl

theorem references_submit_of_not_reads (h : ¬ s.Reads source) :
    (s.submit settings fuel source).session.references = s.references := by
  unfold submit
  dsimp only
  split
  · rfl
  · rename_i hread
    exact absurd (by simpa [Reads, List.isEmpty_iff] using hread) h

/-- What a session can come to from another one, with the starts of the programs that it resolves
on the way, rejected ones included. -/
inductive Resolves (settings : Settings) (s : Session) : List Root → Session → Prop where
  | refl : Resolves settings s [] s
  | resolve {resolved : List Root} {s' : Session} (fuel : Nat) {source : String} :
      Resolves settings s resolved s' → s'.Reads source →
      Resolves settings s (resolved ++ [s'.root fuel source])
        (s'.submit settings fuel source).session
  | refuse {resolved : List Root} {s' : Session} (fuel : Nat) {source : String} :
      Resolves settings s resolved s' → ¬ s'.Reads source →
      Resolves settings s resolved (s'.submit settings fuel source).session
  | forgive {resolved : List Root} {s' : Session} :
      Resolves settings s resolved s' → Resolves settings s resolved s'.forgive
  | closeLog {resolved : List Root} {s' : Session} :
      Resolves settings s resolved s' → Resolves settings s resolved s'.closeLog

/-- The programs that were resolved, in order. -/
def programs (resolved : List Root) : List (Program Unit) := resolved.map Root.program

/-- The programs that were accepted, and so were run. -/
def accepted (resolved : List Root) : List Root :=
  resolved.filter fun r => (Resolution.ofProgram r.program).diagnostics.isEmpty

namespace Resolves

theorem trans (h : Resolves settings s resolved s') (h' : Resolves settings s' later s'') :
    Resolves settings s (resolved ++ later) s'' := by
  induction h' with
  | refl => rwa [List.append_nil]
  | resolve fuel _ hreads ih =>
    rw [← List.append_assoc]
    exact ih.resolve fuel hreads
  | refuse fuel _ hreads ih => exact ih.refuse fuel hreads
  | forgive _ ih => exact ih.forgive
  | closeLog _ ih => exact ih.closeLog

theorem legal (h : Resolves settings s resolved s') : ∀ r ∈ resolved, legalStmts r.program := by
  induction h with
  | refl => exact List.forall_mem_nil _
  | resolve _ _ _ ih =>
    exact List.forall_mem_append.mpr ⟨ih, List.forall_mem_singleton.mpr (Reading.legal _)⟩
  | refuse _ _ _ ih => exact ih
  | forgive _ ih => exact ih
  | closeLog _ ih => exact ih

theorem legal_programs (h : Resolves settings s resolved s') :
    ∀ p ∈ programs resolved, legalStmts p :=
  List.forall_mem_map.mpr h.legal

/-- A session only adds to what it has recorded, and only what it resolves. -/
theorem references (h : Resolves settings s resolved s') :
    s'.references.toList = s.references.toList ++
      (programs resolved).flatMap fun p => (Resolution.ofProgram p).references.toList := by
  induction h with
  | refl => exact (List.append_nil _).symm
  | resolve fuel _ hreads ih =>
    rw [references_submit_of_reads hreads, Array.toList_append, ih, programs, programs,
      List.map_append, List.flatMap_append, List.append_assoc]
    simp only [List.map_cons, List.map_nil, List.flatMap_cons, List.flatMap_nil, List.append_nil]
    rfl
  | refuse fuel _ hreads ih => rw [references_submit_of_not_reads hreads, ih]
  | forgive _ ih => exact ih
  | closeLog _ ih => exact ih

/-- The programs that a session runs are those that it resolves and accepts. -/
theorem history (h : Resolves settings .start resolved s) :
    History settings s (accepted resolved) := by
  induction h with
  | refl => exact .start
  | resolve fuel _ hreads ih =>
    rename_i s' source _
    rw [accepted, List.filter_append, ← accepted]
    by_cases ha : s'.Accepts source
    · have hrun : accepted [s'.root fuel source] = [s'.root fuel source] :=
        List.filter_cons_of_pos (List.isEmpty_iff.mpr (accepts_iff_reads.mp ha).2)
      rw [← accepted, hrun]
      exact ih.run fuel ha
    · have hrefuse : accepted [s'.root fuel source] = [] :=
        List.filter_cons_of_neg fun h => ha (accepts_iff_reads.mpr ⟨hreads, List.isEmpty_iff.mp h⟩)
      rw [← accepted, hrefuse, List.append_nil]
      exact ih.refuse fuel ha
  | refuse fuel _ hreads ih => exact ih.refuse fuel fun ha => hreads (accepts_iff_reads.mp ha).1
  | forgive _ ih => exact ih.forgive
  | closeLog _ ih => exact ih.closeLog

end Resolves

/-! ## Distances are kept -/

/-- What the table of distances is to a session that comes to another one later. -/
structure KeepsDistances (settings : Settings) (resolved later : List Root) (s s' : Session) :
    Prop where
  /-- What the session has recorded is what the table says, and the other way round. -/
  recorded : s.references.toList =
    (distanceTable (programs resolved)).map TableEntry.reference
  tabulates : Tabulates (programs resolved) (distanceTable (programs resolved))
  /-- Later there may be more entries, which are about later programs. -/
  kept : ∃ added, distanceTable (programs (resolved ++ later)) =
      distanceTable (programs resolved) ++ added ∧
    s'.references.toList = s.references.toList ++ added.map TableEntry.reference ∧
    ∀ entry ∈ added, resolved.length ≤ entry.program
  /-- The functions made so far are bound as the table says of occurrences in programs so far, and
  no later entry changes that. -/
  functions : ∀ h code f ρ, Made settings (accepted resolved) h code f ρ →
    f.entry.resolved = .stmts code.body ∧
      f.entry.Follows (programs resolved) (distanceTable (programs (resolved ++ later)))
  /-- Whatever is evaluated, in any step, is bound as the table says. -/
  evaluated : ∀ v env n, Reached settings (accepted (resolved ++ later)) v →
    v.code = .node env n →
      (∃ w ρ, Lockstep settings (accepted (resolved ++ later)) v w ρ) ∧
      ∀ w ρ, Lockstep settings (accepted (resolved ++ later)) v w ρ → w.resolved = n ∧
        w.Follows (programs (resolved ++ later)) (distanceTable (programs (resolved ++ later)))

theorem programs_append (resolved later : List Root) :
    programs (resolved ++ later) = programs resolved ++ programs later := List.map_append

theorem Resolves.follows (h : Resolves settings .start resolved s)
    (h' : Resolves settings s later s') {r : Root} (hr : r ∈ accepted resolved) {w : Site}
    (hw : Within r.program w) :
    w.Follows (programs resolved) (distanceTable (programs (resolved ++ later))) := by
  obtain ⟨hr, ha⟩ := List.mem_filter.mp hr
  have hlegal := (h.trans h').legal_programs
  rw [programs_append] at hlegal ⊢
  exact Within.follows hw (List.mem_map_of_mem hr) (List.isEmpty_iff.mp ha) hlegal

theorem Resolves.keepsDistances (hb : settings.lookup = .bound)
    (h : Resolves settings .start resolved s) (h' : Resolves settings s later s') :
    KeepsDistances settings resolved later s s' where
  recorded := by
    rw [distanceTable, references_distanceTableFrom h.legal_programs, h.references]
    rfl
  tabulates := tabulates_distanceTable h.legal_programs
  kept := by
    refine ⟨distanceTableFrom resolved.length (programs later), ?_, ?_, fun entry hentry => ?_⟩
    · rw [programs_append, distanceTable, distanceTableFrom_append, Nat.zero_add, programs,
        List.length_map]
      rfl
    · rw [references_distanceTableFrom h'.legal_programs, h'.references]
    · obtain ⟨i, _, _, hi⟩ := mem_distanceTableFrom.mp hentry
      rw [(mem_programTable.mp hi).1]
      exact Nat.le_add_right ..
  functions heap code f ρ hmade := by
    have hroots := (h.history.invariant hb).1
    obtain ⟨r, hr, hw⟩ := hmade.within hroots
    refine ⟨?_, h.follows h' hr hw⟩
    rw [(hmade.fits hroots).code]
    rfl
  evaluated v env n hv hc := by
    have hall := h.trans h'
    have hroots := (hall.history.invariant hb).1
    refine ⟨?_, fun w ρ hl => ?_⟩
    · obtain ⟨ν, -, -, hcode⟩ := hall.history.known hb hv
      rw [hc] at hcode
      obtain ⟨w, ρ, hl, -⟩ := hcode
      exact ⟨w, ρ, hl⟩
    · obtain ⟨r, hr, hw⟩ := hl.within hroots
      have hfollows := hall.follows .refl hr hw
      rw [List.append_nil] at hfollows
      exact ⟨(Code.node.inj (hc.symm.trans (hl.fits hroots).code)).2.symm, hfollows⟩

/-- A function refers to one name twice on a line.  A later program is rejected, and one more calls
the function. -/
theorem Resolves.keepsDistances_function : ∃ resolved later s s',
    Resolves (.standard 0 fun _ => 0) .start resolved s ∧
      Resolves (.standard 0 fun _ => 0) s later s' ∧
      distanceTable (programs resolved) =
        [⟨0, [1, 1, 1, 0, 0], ⟨.variable, ⟨"a", 1⟩, 1⟩⟩,
          ⟨0, [1, 1, 1, 0, 1], ⟨.variable, ⟨"a", 1⟩, 1⟩⟩,
          ⟨0, [1, 2, 0, 0], ⟨.variable, ⟨"g", 1⟩, 0⟩⟩] ∧
      later.length = 2 ∧ (accepted later).length = 1 ∧
      KeepsDistances (.standard 0 fun _ => 0) resolved later s s' := by
  let kept := "var f; \x7b var a = 1; fun g() \x7b return a + a; \x7d f = g; \x7d"
  let rejected := "\x7b var a; var a; a = a; \x7d"
  let s := (Session.start.submit (.standard 0 fun _ => 0) 20 kept).session
  let s' := (s.submit (.standard 0 fun _ => 0) 20 rejected).session.forgive
  have hkept : Session.start.Reads kept := by
    unfold Session.Reads
    decide +kernel
  have hrejected : s.Reads rejected := by
    unfold Session.Reads
    decide +kernel
  have hcall : s'.Reads "print f();" := by
    unfold Session.Reads
    decide +kernel
  have h : Resolves (.standard 0 fun _ => 0) .start _ s := .resolve 20 .refl hkept
  have h' : Resolves (.standard 0 fun _ => 0) s _ _ :=
    .resolve 20 (.forgive (.resolve 20 .refl hrejected)) hcall
  refine ⟨_, _, s, _, h, h', ?_, rfl, ?_, h.keepsDistances rfl h'⟩
  · decide +kernel
  · decide +kernel

end Session

end ClassScript
