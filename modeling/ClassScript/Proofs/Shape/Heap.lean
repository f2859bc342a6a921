import ClassScript.Proofs.Heap.Growth
import ClassScript.Proofs.Renaming.Heap
import ClassScript.Proofs.Shape.Values

/-!
# Heaps of programs of different shape

Two heaps are related in a pairing if the first one has the environments that the pairing
lists.  Twins have variables with the same names and related values.  The environments of
extra scopes hold no variable.  The objects and their fields are the same in both heaps.

Related distances lead to twins, or past the outermost environment in both heaps
(`Heap.Reshaped.ascend`).
-/

namespace ClassScript

/-- Heaps of programs of different shape. -/
structure Heap.Reshaped (k : Reshaping) (w : Pairing) (h h' : Heap) : Prop where
  size : h.environments.size = w.length
  twins : ∀ (env : EnvId) outer twin outer', w[env.index]? = some (.shared outer twin outer') →
    h.parent? env = outer ∧ h'.parent? twin = outer' ∧ twin.index < h'.environments.size ∧
      Slots.Alike (Value.Reshaped k w) (h.slots env) (h'.slots twin)
  apart : ∀ (env other : EnvId) outer outer' twin more more',
    w[env.index]? = some (.shared outer twin outer') →
    w[other.index]? = some (.shared more twin more') → env = other
  extras : ∀ (env outer : EnvId), w[env.index]? = some (.extra outer) →
    h.parent? env = some outer ∧ h.slots env = ∅
  globals : w.Along .globals [] .globals
  objects : h'.objects.size = h.objects.size
  fields : ∀ object x, Option.Rel (Value.Reshaped k w) (h.field? object x) (h'.field? object x)
  nextId : h'.nextId = h.nextId

/-- Where two walks to the parents end: at twins, or both at no environment. -/
inductive Pairing.Ends (w : Pairing) : Option (Option EnvId) → Option (Option EnvId) → Prop where
  | twins {env twin : EnvId} {outer outer' : Option EnvId} :
      w[env.index]? = some (.shared outer twin outer') → Ends w (some (some env)) (some (some twin))
  | nowhere : Ends w (some none) (some none)
  | past : Ends w none none

namespace Heap.Reshaped

variable {k : Reshaping} {w : Pairing} {h h' : Heap}

theorem mem_size (hh : Reshaped k w h h') {env : EnvId} {p : PairedEnv}
    (hp : w[env.index]? = some p) : env.index < h.environments.size :=
  hh.size.symm ▸ (List.getElem?_eq_some_iff.mp hp).1

/-! ## Where a distance leads -/

/-- Related distances lead to twins or past the outermost environments. -/
theorem ascend (hh : Reshaped k w h h') {env env' : EnvId} {marks : List ScopeMark}
    (ha : w.Along env marks env') {d d' : Nat} (hd : Shifts marks d d') :
    w.Ends (h.ascend (some env) d) (h'.ascend (some env') d') := by
  induction ha generalizing d d' with
  | outermost hp =>
    cases hd
    obtain ⟨hparent, hparent', -, -⟩ := hh.twins _ _ _ _ hp
    cases d with
    | zero => exact .twins hp
    | succ d =>
      rw [Heap.ascend, Heap.ascend, hparent, hparent']
      cases d with
      | zero => exact .nowhere
      | succ d => exact .past
  | shared hp _ ih =>
    cases hd with
    | here => exact .twins hp
    | out hd =>
      obtain ⟨hparent, hparent', -, -⟩ := hh.twins _ _ _ _ hp
      rw [Heap.ascend, Heap.ascend, hparent, hparent']
      exact ih hd
  | extra hp _ ih =>
    cases hd with
    | skip hd =>
      rw [Heap.ascend, (hh.extras _ _ hp).1]
      exact ih hd

/-- The environments that related distances lead to. -/
theorem ancestorEnv (hh : Reshaped k w h h') {env env' : EnvId} {marks : List ScopeMark}
    (ha : w.Along env marks env') {d d' : Int} (hd : Shifts marks d.toNat d'.toNat) :
    (∃ outer twin more more', h.ancestorEnv env d = .ok outer ∧
        h'.ancestorEnv env' d' = .ok twin ∧ w[outer.index]? = some (.shared more twin more')) ∨
      h.ancestorEnv env d = .error .pastOutermost ∧
        h'.ancestorEnv env' d' = .error .pastOutermost := by
  have hends := hh.ascend ha hd
  unfold Heap.ancestorEnv
  generalize h.ascend (some env) d.toNat = o, h'.ascend (some env') d'.toNat = o' at hends ⊢
  cases hends with
  | twins hp => exact .inl ⟨_, _, _, _, rfl, rfl, hp⟩
  | nowhere => exact .inr ⟨rfl, rfl⟩
  | past => exact .inr ⟨rfl, rfl⟩

/-! ## Changes -/

theorem define (hh : Reshaped k w h h') {env twin : EnvId} {outer outer' : Option EnvId}
    (hp : w[env.index]? = some (.shared outer twin outer')) {a a' : Value}
    (ha : Value.Reshaped k w a a') (x : String) :
    Reshaped k w (h.define env x a) (h'.define twin x a') where
  size := (size_define ..).trans hh.size
  twins other more other' more' hother := by
    obtain ⟨hparent, hparent', hlt, hslots⟩ := hh.twins other more other' more' hother
    refine ⟨(parent?_define ..).trans hparent, (parent?_define ..).trans hparent', ?_, ?_⟩
    · rwa [size_define]
    · by_cases he : env = other
      · subst he
        cases hp.symm.trans hother
        rw [slots_define_self (hh.mem_size hp), slots_define_self hlt]
        exact hslots.set ha x
      · have he' : twin ≠ other' := fun ht => he (hh.apart _ _ _ _ _ _ _ hp (ht ▸ hother))
        rw [slots_define_of_ne he, slots_define_of_ne he']
        exact hslots
  apart := hh.apart
  extras other more hother := by
    have he : env ≠ other := fun he => by
      subst he
      cases hp.symm.trans hother
    rw [parent?_define, slots_define_of_ne he]
    exact hh.extras other more hother
  globals := hh.globals
  objects := hh.objects
  fields := hh.fields
  nextId := hh.nextId

/-- What a longer pairing lists: what was there, or the new environment. -/
theorem getElem?_concat {w : Pairing} {env : EnvId} {p q : PairedEnv}
    (h : (w ++ [q])[env.index]? = some p) :
    w[env.index]? = some p ∧ env.index < w.length ∨ env = ⟨w.length⟩ ∧ p = q := by
  by_cases hlt : env.index < w.length
  · rw [List.getElem?_append_left hlt] at h
    exact .inl ⟨h, hlt⟩
  · have hi : env.index = w.length := by
      have := (List.getElem?_eq_some_iff.mp h).1
      rw [List.length_append, List.length_singleton] at this
      omega
    rw [hi, List.getElem?_concat_length] at h
    exact .inr ⟨congrArg EnvId.mk hi, (Option.some.inj h).symm⟩

theorem fields_mono (hh : Reshaped k w h h') {w' : Pairing} (hw : w <+: w') (object : ObjectId)
    (x : String) :
    Option.Rel (Value.Reshaped k w') (h.field? object x) (h'.field? object x) := by
  have hx := hh.fields object x
  generalize h.field? object x = o, h'.field? object x = o' at hx ⊢
  cases hx with
  | none => exact .none
  | some ha => exact .some (ha.mono hw)

/-- Both runs make an environment. -/
theorem pushEnv (hh : Reshaped k w h h') (outer outer' : EnvId) {s s' : Slots Value}
    (hs : Slots.Alike (Value.Reshaped k w) s s') :
    Reshaped k (w ++ [.shared (some outer) h'.nextEnv (some outer')])
      (h.pushEnv (some outer) s) (h'.pushEnv (some outer') s') := by
  have hw : w <+: w ++ [.shared (some outer) h'.nextEnv (some outer')] := List.prefix_append ..
  have hnew : (⟨w.length⟩ : EnvId) = h.nextEnv := congrArg EnvId.mk hh.size.symm
  -- The new twin is none of the environments that were there.
  have hold : ∀ {env : EnvId} {more more'}, w[env.index]? = some (.shared more h'.nextEnv more') →
      False := fun hp => Nat.lt_irrefl _ (hh.twins _ _ _ _ hp).2.2.1
  refine ⟨?_, fun env more twin more' hp => ?_,
    fun env other more more' twin rest rest' hp hq => ?_, fun env more hp => ?_,
    hh.globals.mono hw, hh.objects, fun object x => ?_, hh.nextId⟩
  · rw [size_pushEnv, hh.size, List.length_append, List.length_singleton]
  · rcases getElem?_concat hp with ⟨hp, hlt⟩ | ⟨rfl, hq⟩
    · obtain ⟨hparent, hparent', hlt', hslots⟩ := hh.twins env more twin more' hp
      rw [parent?_pushEnv_of_lt (hh.mem_size hp), parent?_pushEnv_of_lt hlt',
        slots_pushEnv_of_lt (hh.mem_size hp), slots_pushEnv_of_lt hlt', size_pushEnv]
      exact ⟨hparent, hparent', Nat.lt_succ_of_lt hlt', hslots.reshaped_mono hw⟩
    · cases hq
      rw [hnew, parent?_pushEnv_self, parent?_pushEnv_self, slots_pushEnv_self,
        slots_pushEnv_self, size_pushEnv]
      exact ⟨rfl, rfl, Nat.lt_succ_self _, hs.reshaped_mono hw⟩
  · rcases getElem?_concat hp with ⟨hp, -⟩ | ⟨rfl, hp'⟩ <;>
      rcases getElem?_concat hq with ⟨hq, -⟩ | ⟨rfl, hq'⟩
    · exact hh.apart _ _ _ _ _ _ _ hp hq
    · cases hq'
      exact (hold hp).elim
    · cases hp'
      exact (hold hq).elim
    · rfl
  · rcases getElem?_concat hp with ⟨hp, -⟩ | ⟨rfl, hq⟩
    · rw [parent?_pushEnv_of_lt (hh.mem_size hp), slots_pushEnv_of_lt (hh.mem_size hp)]
      exact hh.extras env more hp
    · cases hq
  · exact hh.fields_mono hw object x

/-- Only the first run makes an environment, for an extra scope. -/
theorem pushExtra (hh : Reshaped k w h h') (outer : EnvId) :
    Reshaped k (w ++ [.extra outer]) (h.pushEnv (some outer) ∅) h' := by
  have hw : w <+: w ++ [.extra outer] := List.prefix_append ..
  have hnew : (⟨w.length⟩ : EnvId) = h.nextEnv := congrArg EnvId.mk hh.size.symm
  -- The new environment is no twin.
  have hshared : ∀ {env : EnvId} {more twin more'},
      (w ++ [.extra outer])[env.index]? = some (.shared more twin more') →
      w[env.index]? = some (.shared more twin more') := by
    intro env more twin more' hp
    rcases getElem?_concat hp with ⟨hp, -⟩ | ⟨-, hq⟩
    · exact hp
    · cases hq
  refine ⟨?_, fun env more twin more' hp => ?_, fun env other more more' twin rest rest' hp hq =>
    hh.apart _ _ _ _ _ _ _ (hshared hp) (hshared hq), fun env more hp => ?_, hh.globals.mono hw,
    hh.objects, fun object x => ?_, hh.nextId⟩
  · rw [size_pushEnv, hh.size, List.length_append, List.length_singleton]
  · have hp := hshared hp
    obtain ⟨hparent, hparent', hlt', hslots⟩ := hh.twins env more twin more' hp
    rw [parent?_pushEnv_of_lt (hh.mem_size hp), slots_pushEnv_of_lt (hh.mem_size hp)]
    exact ⟨hparent, hparent', hlt', hslots.reshaped_mono hw⟩
  · rcases getElem?_concat hp with ⟨hp, -⟩ | ⟨rfl, hq⟩
    · rw [parent?_pushEnv_of_lt (hh.mem_size hp), slots_pushEnv_of_lt (hh.mem_size hp)]
      exact hh.extras env more hp
    · cases hq
      rw [hnew, parent?_pushEnv_self, slots_pushEnv_self]
      exact ⟨rfl, rfl⟩
  · exact hh.fields_mono hw object x

theorem pushObject (hh : Reshaped k w h h') : Reshaped k w h.pushObject h'.pushObject where
  size := hh.size
  twins := hh.twins
  apart := hh.apart
  extras := hh.extras
  globals := hh.globals
  objects := by simp [Heap.pushObject, hh.objects]
  fields object x := by
    rw [field?_pushObject_eq, field?_pushObject_eq]
    exact hh.fields object x
  nextId := hh.nextId

theorem setField (hh : Reshaped k w h h') (object : ObjectId) (x : String) {a a' : Value}
    (ha : Value.Reshaped k w a a') :
    Reshaped k w (h.setField object x a) (h'.setField object x a') where
  size := hh.size
  twins := hh.twins
  apart := hh.apart
  extras := hh.extras
  globals := hh.globals
  objects := by simp [Heap.setField, hh.objects]
  fields other y := by
    rw [field?_setField_eq, field?_setField_eq, hh.objects]
    split
    · exact .some ha
    · exact hh.fields other y
  nextId := hh.nextId

theorem takeId (hh : Reshaped k w h h') : Reshaped k w h.takeId h'.takeId where
  size := hh.size
  twins := hh.twins
  apart := hh.apart
  extras := hh.extras
  globals := hh.globals
  objects := hh.objects
  fields := hh.fields
  nextId := congrArg (· + 1) hh.nextId

end Heap.Reshaped

end ClassScript
