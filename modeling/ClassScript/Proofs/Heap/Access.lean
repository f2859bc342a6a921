import ClassScript.Proofs.Heap.Lookup
import Mathlib.Data.Nat.Find

/-!
# Access by name and by distance

Environments form a *forest* (`Heap.Forest`): each is made with a parent that is there
already, or with none.  So parents are older than their children, and the number of an
environment is enough of a bound for the walk along its parents.

The *closest* environment with a name is the one at the least distance that has it
(`Heap.Closest`).  The walk by name ends there (`Heap.Closest.find?_eq`), so access by name
and access by that distance are the same.  A write there sets one slot
(`Heap.OneSlot`).  It changes what other environments see just where the closest
environment is the same for them (`Heap.get?_define_closest`).
-/

namespace ClassScript

/-- A name that is there keeps its place when it is set, and everything else stays. -/
theorem Slots.entries_set_of_contains {α : Type} {s : Slots α} {name : String}
    (h : s.contains name = true) (value : α) :
    ∃ before old after, s.entries = before ++ (name, old) :: after ∧
      (s.set name value).entries = before ++ (name, value) :: after := by
  obtain ⟨entries⟩ := s
  replace h : (find? name entries).isSome = true := h
  show ∃ before old after, entries = before ++ (name, old) :: after ∧
    replace name value entries = before ++ (name, value) :: after
  induction entries with
  | nil => cases h
  | cons entry rest ih =>
    obtain ⟨key, old⟩ := entry
    by_cases hk : key = name
    · subst hk
      exact ⟨[], old, rest, rfl, by simp [replace]⟩
    · obtain ⟨before, old', after, hrest, hset⟩ := ih (by simpa [find?, hk] using h)
      exact ⟨(key, old) :: before, old', after, by rw [hrest]; rfl, by
        rw [replace, if_neg hk, hset]; rfl⟩

namespace Heap

/-! ## Forests -/

/-- The heaps that arise when environments are made and variables are set: in an
environment, in the closest one with the name, or in the one at a distance. -/
inductive Forest : Heap → Prop where
  | empty : Forest .empty
  | new {h : Heap} {parent : Option EnvId} (slots : Slots Value) : Forest h →
      (∀ p ∈ parent, p.index < h.environments.size) → Forest (h.pushEnv parent slots)
  | define {h : Heap} (env : EnvId) (name : String) (value : Value) : Forest h →
      Forest (h.define env name value)
  | assign {h h' : Heap} {env : EnvId} {name : String} {value : Value} : Forest h →
      h.assign? env name value = some h' → Forest h'
  | assignAt {h h' : Heap} {env : EnvId} {distance : Int} {name : String} {value : Value} :
      Forest h → h.assignAt env distance name value = .ok h' → Forest h'

/-- Assigning to a name sets it in some environment. -/
theorem exists_define_of_assign? {h h' : Heap} {env : EnvId} {name : String} {value : Value}
    (ha : h.assign? env name value = some h') : ∃ holder, h' = h.define holder name value := by
  unfold assign? at ha
  split at ha
  · cases ha
  · rename_i holder _
    exact ⟨holder, (Option.some.inj ha).symm⟩

theorem exists_define_of_assignAt {h h' : Heap} {env : EnvId} {distance : Int} {name : String}
    {value : Value} (ha : h.assignAt env distance name value = .ok h') :
    ∃ holder, h' = h.define holder name value := by
  unfold Heap.assignAt at ha
  split at ha
  · cases ha
  · rename_i holder _
    exact ⟨holder, (Except.ok.inj ha).symm⟩

/-- Parents are older than their children. -/
theorem Forest.parent_lt {h : Heap} (hf : h.Forest) {env p : EnvId}
    (hp : h.parent? env = some p) : p.index < env.index := by
  induction hf generalizing env p with
  | empty => cases hp
  | @new h parent slots _ hparent ih =>
    have hlt := lt_size_of_parent? hp
    rw [size_pushEnv] at hlt
    rcases Nat.lt_succ_iff_lt_or_eq.mp hlt with hold | hnew
    · rw [parent?_pushEnv_of_lt hold] at hp
      exact ih hp
    · obtain rfl : env = h.nextEnv := congrArg EnvId.mk hnew
      rw [parent?_pushEnv_self] at hp
      exact hparent p hp
  | define env name value _ ih => exact ih (by rwa [parent?_define] at hp)
  | assign _ ha ih =>
    obtain ⟨holder, rfl⟩ := exists_define_of_assign? ha
    exact ih (by rwa [parent?_define] at hp)
  | assignAt _ ha ih =>
    obtain ⟨holder, rfl⟩ := exists_define_of_assignAt ha
    exact ih (by rwa [parent?_define] at hp)

/-! ## Ancestors -/

theorem ancestorEnv_eq_ok {h : Heap} {env outer : EnvId} {d : Nat} :
    h.ancestorEnv env d = .ok outer ↔ h.ascend (some env) d = some (some outer) := by
  unfold ancestorEnv
  rw [Int.toNat_natCast]
  split
  · rename_i hd
    rw [hd]
    simp
  · rename_i hd
    exact ⟨nofun, fun h => absurd h (hd outer)⟩

theorem ancestorEnv_zero (h : Heap) (env : EnvId) : h.ancestorEnv env (0 : Nat) = .ok env := rfl

/-- The ancestors of an environment behind its parent are those of the parent. -/
theorem ancestorEnv_succ {h : Heap} {env outer : EnvId} {d : Nat} :
    h.ancestorEnv env (d + 1 : Nat) = .ok outer ↔
      ∃ p, h.parent? env = some p ∧ h.ancestorEnv p d = .ok outer := by
  rw [ancestorEnv_eq_ok, ascend]
  cases hp : h.parent? env with
  | none => cases d <;> simp [ascend]
  | some p => simp [ancestorEnv_eq_ok]

/-- A step to an ancestor leads to an older environment. -/
theorem Forest.ancestorEnv_le {h : Heap} (hf : h.Forest) {env outer : EnvId} {d : Nat}
    (hd : h.ancestorEnv env d = .ok outer) : outer.index + d ≤ env.index := by
  induction d generalizing env with
  | zero =>
    obtain rfl : env = outer := Except.ok.inj hd
    exact Nat.le_refl _
  | succ d ih =>
    obtain ⟨p, hp, hd⟩ := ancestorEnv_succ.mp hd
    have hle := ih hd
    have hlt := hf.parent_lt hp
    omega

@[simp] theorem ancestorEnv_define (h : Heap) (holder env : EnvId) (name : String) (value : Value)
    (distance : Int) :
    (h.define holder name value).ancestorEnv env distance = h.ancestorEnv env distance := by
  have hascend : ∀ (d : Nat) (place : Option EnvId),
      (h.define holder name value).ascend place d = h.ascend place d := by
    intro d
    induction d with
    | zero => exact fun place => rfl
    | succ d ih =>
      intro place
      cases place with
      | none => rfl
      | some env => rw [ascend, ascend, parent?_define, ih]
  unfold ancestorEnv
  rw [hascend]

/-! ## The closest environment with a name -/

/-- The environment `holder` at the distance `d` has the name, and no closer one has it. -/
structure Closest (h : Heap) (env : EnvId) (name : String) (d : Nat) (holder : EnvId) : Prop where
  reached : h.ancestorEnv env d = .ok holder
  has : h.Has holder name
  nearest : ∀ i < d, ∀ outer, h.ancestorEnv env i = .ok outer → ¬ h.Has outer name

/-- No ancestor of the environment, itself included, has the name. -/
def Lacks (h : Heap) (env : EnvId) (name : String) : Prop :=
  ∀ (d : Nat) (outer : EnvId), h.ancestorEnv env d = .ok outer → ¬ h.Has outer name

variable {h : Heap} {env holder : EnvId} {name : String} {d : Nat}

/-- Either some environment is the closest one with a name, or none has it. -/
theorem closest_or_lacks (h : Heap) (env : EnvId) (name : String) :
    (∃ d holder, h.Closest env name d holder) ∨ h.Lacks env name := by
  classical
  by_cases hsome : ∃ d, ∃ outer, h.ancestorEnv env (d : Nat) = .ok outer ∧ h.Has outer name
  · obtain ⟨holder, hreached, hhas⟩ := Nat.find_spec hsome
    exact .inl ⟨Nat.find hsome, holder, hreached, hhas, fun i hi outer houter hx =>
      Nat.find_min hsome hi ⟨outer, houter, hx⟩⟩
  · exact .inr fun d outer houter hx => hsome ⟨d, outer, houter, hx⟩

/-- The walk by name ends at the closest environment with the name. -/
theorem Closest.find?_eq (hc : h.Closest env name d holder) {bound : Nat} (hb : d < bound) :
    h.find? name bound env = (h.slots holder).get? name ∧
      h.holder? name bound env = some holder := by
  induction d generalizing env bound with
  | zero =>
    obtain rfl : env = holder := Except.ok.inj hc.reached
    obtain ⟨bound, rfl⟩ := Nat.exists_eq_succ_of_ne_zero (Nat.ne_of_gt hb)
    exact ⟨find?_of_has hc.has, holder?_of_has hc.has⟩
  | succ d ih =>
    obtain ⟨p, hp, hreached⟩ := ancestorEnv_succ.mp hc.reached
    obtain ⟨bound, rfl⟩ := Nat.exists_eq_succ_of_ne_zero (Nat.ne_of_gt (Nat.zero_lt_of_lt hb))
    have hfirst : ¬ h.Has env name := hc.nearest 0 (Nat.succ_pos d) env (ancestorEnv_zero h env)
    have hrest : h.Closest p name d holder := ⟨hreached, hc.has, fun i hi outer houter =>
      hc.nearest (i + 1) (Nat.succ_lt_succ hi) outer (ancestorEnv_succ.mpr ⟨p, hp, houter⟩)⟩
    rw [find?_of_not_has hfirst, holder?_of_not_has hfirst, hp]
    exact ih hrest (Nat.lt_of_succ_lt_succ hb)

/-- The walk by name finds nothing if no ancestor has the name. -/
theorem Lacks.find?_eq (hl : h.Lacks env name) (bound : Nat) :
    h.find? name bound env = none ∧ h.holder? name bound env = none := by
  induction bound generalizing env with
  | zero => exact ⟨rfl, rfl⟩
  | succ bound ih =>
    have hfirst : ¬ h.Has env name := hl 0 env (ancestorEnv_zero h env)
    rw [find?_of_not_has hfirst, holder?_of_not_has hfirst]
    cases hp : h.parent? env with
    | none => exact ⟨rfl, rfl⟩
    | some p =>
      exact ih fun d outer houter => hl (d + 1) outer (ancestorEnv_succ.mpr ⟨p, hp, houter⟩)

theorem Lacks.get?_eq (hl : h.Lacks env name) : h.get? env name = none :=
  (hl.find?_eq _).1

/-- The walk by name ends at the closest environment with the name. -/
theorem Closest.get?_eq (hc : h.Closest env name d holder) (hf : h.Forest) :
    h.get? env name = (h.slots holder).get? name ∧
      h.holder? name (env.index + 1) env = some holder := by
  have hle := hf.ancestorEnv_le hc.reached
  exact hc.find?_eq (by omega)

/-! ## Writes -/

/-- Heaps that differ in one variable of one environment, which has the given value in the
second one. -/
structure OneSlot (h h' : Heap) (holder : EnvId) (name : String) (value : Value) : Prop where
  /-- There are the same environments, objects and numbers. -/
  size : h'.environments.size = h.environments.size
  objects : h'.objects = h.objects
  nextId : h'.nextId = h.nextId
  parents : ∀ env, h'.parent? env = h.parent? env
  /-- The others have the same variables. -/
  others : ∀ env, env ≠ holder → h'.slots env = h.slots env
  /-- The variable keeps its place among those of its environment. -/
  slot : ∃ before old after, (h.slots holder).entries = before ++ (name, old) :: after ∧
    (h'.slots holder).entries = before ++ (name, value) :: after

theorem oneSlot_define (hx : h.Has holder name) (value : Value) :
    h.OneSlot (h.define holder name value) holder name value where
  size := size_define ..
  objects := rfl
  nextId := rfl
  parents env := parent?_define ..
  others env hne := slots_define_of_ne hne.symm ..
  slot := by
    rw [slots_define_self (lt_size_of_has hx)]
    exact Slots.entries_set_of_contains hx value

theorem has_define_of_has (hx : h.Has holder name) (value : Value) (env : EnvId) (x : String) :
    (h.define holder name value).Has env x ↔ h.Has env x := by
  rw [has_define_iff (lt_size_of_has hx)]
  exact ⟨fun hor => hor.elim id (by rintro ⟨rfl, rfl⟩; exact hx), .inl⟩

/-- Setting a variable that is there leaves the closest environments as they are. -/
theorem closest_define (hx : h.Has holder name) (value : Value) (env outer : EnvId) (x : String)
    (d : Nat) : (h.define holder name value).Closest env x d outer ↔ h.Closest env x d outer := by
  have hiff := has_define_of_has hx value
  constructor
  · rintro ⟨hreached, hhas, hnearest⟩
    exact ⟨by rwa [ancestorEnv_define] at hreached, (hiff ..).mp hhas, fun i hi e he hex =>
      hnearest i hi e (by rwa [ancestorEnv_define]) ((hiff ..).mpr hex)⟩
  · rintro ⟨hreached, hhas, hnearest⟩
    exact ⟨by rwa [ancestorEnv_define], (hiff ..).mpr hhas, fun i hi e he hex =>
      hnearest i hi e (by rwa [ancestorEnv_define] at he) ((hiff ..).mp hex)⟩

theorem lacks_define (hx : h.Has holder name) (value : Value) (env : EnvId) (x : String) :
    (h.define holder name value).Lacks env x ↔ h.Lacks env x := by
  unfold Lacks
  simp only [ancestorEnv_define, has_define_of_has hx value]

/-- A write is seen from the environments for which the closest one with the name is the one
that was written to.  From the others everything is seen as before. -/
theorem get?_define_closest (hf : h.Forest) (hx : h.Has holder name) (value : Value) (env : EnvId)
    (x : String) :
    (x = name ∧ (∃ d, h.Closest env name d holder) →
        (h.define holder name value).get? env x = some value) ∧
      (¬ (x = name ∧ ∃ d, h.Closest env name d holder) →
        (h.define holder name value).get? env x = h.get? env x) := by
  have hf' : (h.define holder name value).Forest := .define holder name value hf
  constructor
  · rintro ⟨rfl, d, hc⟩
    have hc' := (closest_define hx value env holder x d).mpr hc
    rw [(hc'.get?_eq hf').1, slots_define_self (lt_size_of_has hx), Slots.get?_set_self]
  · intro hother
    rcases h.closest_or_lacks env x with ⟨d, outer, hc⟩ | hl
    · have hc' := (closest_define hx value env outer x d).mpr hc
      rw [(hc'.get?_eq hf').1, (hc.get?_eq hf).1]
      by_cases hholder : holder = outer
      · subst hholder
        have hne : name ≠ x := by
          rintro rfl
          exact hother ⟨rfl, d, hc⟩
        rw [slots_define_self (lt_size_of_has hx), Slots.get?_set_of_ne _ _ hne]
      · rw [slots_define_of_ne hholder]
    · rw [hl.get?_eq, ((lacks_define hx value env x).mpr hl).get?_eq]

/-! ## By name as by distance -/

theorem Closest.getAt_eq (hc : h.Closest env name d holder) {a : Value}
    (ha : (h.slots holder).get? name = some a) : h.getAt env d name = .ok a := by
  unfold getAt
  rw [hc.reached]
  simp only [ha]

theorem Closest.assignAt_eq (hc : h.Closest env name d holder) (value : Value) :
    h.assignAt env d name value = .ok (h.define holder name value) := by
  unfold Heap.assignAt
  rw [hc.reached]

theorem Closest.assign?_eq (hc : h.Closest env name d holder) (hf : h.Forest) (value : Value) :
    h.assign? env name value = some (h.define holder name value) := by
  unfold assign?
  rw [(hc.get?_eq hf).2]

theorem Lacks.assign?_eq (hl : h.Lacks env name) (value : Value) :
    h.assign? env name value = none := by
  unfold assign?
  rw [(hl.find?_eq _).2]

/-- What access to a name comes to from an environment for which `holder`, at the distance `d`,
is the closest one with the name. -/
structure AccessAgrees (m : Machine) (env : EnvId) (name : Name) (value : Value) (d : Nat)
    (holder : EnvId) (a : Value) (h' : Heap) : Prop where
  /-- It is read by name and by distance. -/
  get : m.heap.get? env name.text = some a ∧ m.heap.getAt env d name.text = .ok a
  read : Run.readByName env name m = .ok a m ∧ Run.readAt env d name.text m = .ok a m
  /-- It is written by name and by distance, with the same heap as the result. -/
  assign : m.heap.assign? env name.text value = some h' ∧
    m.heap.assignAt env d name.text value = .ok h'
  write : Run.writeByName env name value m = .ok () { m with heap := h' } ∧
    Run.writeAt env d name.text value m = .ok () { m with heap := h' }
  forest : h'.Forest
  /-- One slot differs. -/
  oneSlot : m.heap.OneSlot h' holder name.text value
  /-- The value is seen from the environments with the same closest holder, and from those
  that saw the same value before. -/
  seen : ∀ other, h'.get? other name.text = some value ↔
    (∃ d', m.heap.Closest other name.text d' holder) ∨ m.heap.get? other name.text = some value
  unchanged : ∀ other x, ¬ (x = name.text ∧ ∃ d', m.heap.Closest other name.text d' holder) →
    h'.get? other x = m.heap.get? other x

/-- Access by name is access by the distance of the closest environment with the name.  If
there is none, reading and writing fail alike and change nothing. -/
theorem Forest.access {m : Machine} (hf : m.heap.Forest) (env : EnvId) (name : Name)
    (value : Value) :
    (∀ d holder, m.heap.Closest env name.text d holder →
        ∃ a h', AccessAgrees m env name value d holder a h') ∧
      (m.heap.Lacks env name.text →
        m.heap.get? env name.text = none ∧ m.heap.assign? env name.text value = none ∧
        ∃ f : Failure, f.error.message = "Undefined variable '" ++ name.text ++ "'." ∧
          f.line = name.line ∧ Run.readByName env name m = .error (.failure f) m ∧
          Run.writeByName env name value m = .error (.failure f) m) := by
  refine ⟨fun d holder hc => ?_, fun hl => ?_⟩
  · obtain ⟨a, ha⟩ := Option.isSome_iff_exists.mp hc.has
    have hget : m.heap.get? env name.text = some a := (hc.get?_eq hf).1.trans ha
    have hseen := get?_define_closest hf hc.has value
    refine ⟨a, m.heap.define holder name.text value, ⟨hget, hc.getAt_eq ha⟩, ⟨?_, ?_⟩,
      ⟨hc.assign?_eq hf value, hc.assignAt_eq value⟩, ⟨?_, ?_⟩, .define holder name.text value hf,
      oneSlot_define hc.has value, fun other => ⟨fun hv => ?_, fun hor => ?_⟩,
      fun other x hother => (hseen other x).2 hother⟩
    · unfold Run.readByName
      rw [hget]
    · unfold Run.readAt
      rw [hc.getAt_eq ha]
    · unfold Run.writeByName
      rw [(hc.get?_eq hf).2]
    · unfold Run.writeAt
      rw [hc.reached]
    · by_cases hclose : ∃ d', m.heap.Closest other name.text d' holder
      · exact .inl hclose
      · exact .inr (((hseen other name.text).2 fun hand => hclose hand.2).symm.trans hv)
    · by_cases hclose : ∃ d', m.heap.Closest other name.text d' holder
      · exact (hseen other name.text).1 ⟨rfl, hclose⟩
      · exact ((hseen other name.text).2 fun hand => hclose hand.2).trans
          (hor.resolve_left hclose)
  · refine ⟨hl.get?_eq, hl.assign?_eq value, ⟨.undefinedVariable name.text, name.line⟩, rfl, rfl,
      ?_, ?_⟩
    · unfold Run.readByName
      rw [hl.get?_eq]
    · unfold Run.writeByName
      rw [(hl.find?_eq _).2]

/-- Two environments with a common parent, of which the second one has the name itself: what
the first one writes to it is seen from the parent and not from the second one. -/
theorem Forest.access_shared :
    let h : Heap :=
      ((((Heap.empty.pushEnv none ∅).define ⟨0⟩ "a" .nil).pushEnv (some ⟨0⟩) ∅).pushEnv
        (some ⟨0⟩) ∅).define ⟨2⟩ "a" (.boolean true)
    let m : Machine := ⟨h, 0, #[]⟩
    h.Forest ∧ h.Closest ⟨1⟩ "a" 1 ⟨0⟩ ∧
      ∃ h', h.assign? ⟨1⟩ "a" (.boolean false) = some h' ∧
        h.assignAt ⟨1⟩ 1 "a" (.boolean false) = .ok h' ∧
        h'.get? ⟨0⟩ "a" = some (.boolean false) ∧ h'.get? ⟨2⟩ "a" = h.get? ⟨2⟩ "a" ∧
        ∃ f : Failure, f.error.message = "Undefined variable '" ++ "b" ++ "'." ∧ f.line = 7 ∧
          Run.readByName ⟨1⟩ ⟨"b", 7⟩ m = .error (.failure f) m := by
  intro h m
  have hforest : h.Forest := by
    refine .define _ _ _ (.new _ (.new _ (.define _ _ _ (.new _ .empty nofun)) ?_) ?_)
    · rintro _ ⟨⟩
      decide
    · rintro _ ⟨⟩
      decide
  have hclosest : h.Closest ⟨1⟩ "a" 1 ⟨0⟩ := by
    refine ⟨rfl, rfl, fun i hi outer houter => ?_⟩
    obtain rfl : i = 0 := Nat.lt_one_iff.mp hi
    cases houter
    exact Bool.false_ne_true
  have hlacks : h.Lacks ⟨1⟩ "b" := by
    refine (h.closest_or_lacks ⟨1⟩ "b").resolve_left ?_
    rintro ⟨d, holder, hc⟩
    have hnone : h.get? ⟨1⟩ "b" = none := rfl
    have hhas := hc.has
    unfold Has Slots.contains at hhas
    rw [← (hc.get?_eq hforest).1, hnone] at hhas
    cases hhas
  obtain ⟨a, h', hagrees⟩ :=
    (Forest.access (m := m) hforest ⟨1⟩ ⟨"a", 7⟩ (.boolean false)).1 1 ⟨0⟩ hclosest
  obtain ⟨-, -, f, hmessage, hline, hread, -⟩ :=
    (Forest.access (m := m) hforest ⟨1⟩ ⟨"b", 7⟩ .nil).2 hlacks
  refine ⟨hforest, hclosest, h', hagrees.assign.1, hagrees.assign.2, ?_, ?_, f, hmessage, hline,
    hread⟩
  · exact (hagrees.seen ⟨0⟩).mpr (.inl ⟨0, rfl, rfl, nofun⟩)
  · refine hagrees.unchanged ⟨2⟩ "a" ?_
    rintro ⟨-, d, hc⟩
    -- The second environment is itself the closest one to it.
    have hd : d = 0 := by
      by_contra hd
      exact hc.nearest 0 (Nat.pos_of_ne_zero hd) ⟨2⟩ rfl rfl
    subst hd
    cases hc.reached

end Heap

end ClassScript
