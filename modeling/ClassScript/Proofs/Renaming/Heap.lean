import ClassScript.Proofs.Heap.Growth
import ClassScript.Proofs.Renaming.Values

/-!
# Heaps that differ in the names of local variables

Two heaps are related in a world if both have the environments that the world lists, with
slots under changed names, and the same objects with the same fields.  A change of one heap
and the same change of the other one, under changed names, leave them related.

A distance leads to the same environment in both, and the names of that environment are
changed as the stack of changes says (`Heap.Renamed.frame_of_ancestorEnv`).
-/

namespace ClassScript

/-- Heaps that differ in the names of local variables. -/
structure Heap.Renamed (w : World) (h h' : Heap) : Prop where
  size : h.environments.size = w.length
  size' : h'.environments.size = w.length
  parents : ∀ (env : EnvId) frame, w[env.index]? = some frame →
    h.parent? env = frame.parent ∧ h'.parent? env = frame.parent
  slots : ∀ (env : EnvId) frame, w[env.index]? = some frame →
    Slots.Related frame.names (Value.Renamed w) (h.slots env) (h'.slots env)
  globals : w.Along .globals []
  objects : h'.objects.size = h.objects.size
  fields : ∀ object x, Option.Rel (Value.Renamed w) (h.field? object x) (h'.field? object x)
  nextId : h'.nextId = h.nextId

theorem Heap.eq_pastOutermost_of_ancestorEnv {h : Heap} {env : EnvId} {distance : Int}
    {e : AccessError} (ho : h.ancestorEnv env distance = .error e) : e = .pastOutermost := by
  unfold ancestorEnv at ho
  split at ho <;> cases ho
  rfl

namespace Heap.Renamed

variable {w : World} {h h' : Heap}

/-! ## Where a distance leads -/

theorem parent?_eq (hh : Renamed w h h') (env : EnvId) : h'.parent? env = h.parent? env := by
  cases hf : w[env.index]? with
  | some frame =>
    obtain ⟨hp, hp'⟩ := hh.parents env frame hf
    rw [hp, hp']
  | none =>
    have hout : ∀ h : Heap, h.environments.size = w.length → h.parent? env = none := by
      intro h hs
      rw [List.getElem?_eq_none_iff, ← hs] at hf
      simp [parent?, Array.getElem?_eq_none hf]
    rw [hout h hh.size, hout h' hh.size']

theorem ascend_eq (hh : Renamed w h h') (place : Option EnvId) (distance : Nat) :
    h'.ascend place distance = h.ascend place distance := by
  induction distance generalizing place with
  | zero => rw [ascend, ascend]
  | succ distance ih =>
    cases place with
    | none => rfl
    | some env => rw [ascend, ascend, hh.parent?_eq, ih]

theorem ancestorEnv_eq (hh : Renamed w h h') (env : EnvId) (distance : Int) :
    h'.ancestorEnv env distance = h.ancestorEnv env distance := by
  rw [ancestorEnv, ancestorEnv, hh.ascend_eq]

theorem frame_of_ascend (hh : Renamed w h h') {env outer : EnvId} {maps : List NameMap}
    (ha : w.Along env maps) {distance : Nat}
    (ho : h.ascend (some env) distance = some (some outer)) :
    ∃ parent, w[outer.index]? = some ⟨parent, .ofDistance maps distance⟩ := by
  induction ha generalizing distance with
  | outermost hf =>
    cases distance with
    | zero =>
      cases ho
      exact ⟨_, hf⟩
    | succ distance =>
      rw [ascend, (hh.parents _ _ hf).1] at ho
      cases distance <;> cases ho
  | inner hf _ ih =>
    cases distance with
    | zero =>
      cases ho
      exact ⟨_, hf⟩
    | succ distance =>
      rw [ascend, (hh.parents _ _ hf).1] at ho
      exact ih ho

/-- The names of the environment that a distance leads to are changed as the stack says. -/
theorem frame_of_ancestorEnv (hh : Renamed w h h') {env outer : EnvId} {maps : List NameMap}
    (ha : w.Along env maps) {distance : Int} (ho : h.ancestorEnv env distance = .ok outer) :
    ∃ parent, w[outer.index]? = some ⟨parent, .ofDistance maps distance.toNat⟩ := by
  unfold ancestorEnv at ho
  split at ho
  · rename_i outer' hascend
    cases ho
    exact hh.frame_of_ascend ha hascend
  · cases ho

/-! ## Changes -/

theorem define (hh : Renamed w h h') {env : EnvId} {frame : Frame}
    (hf : w[env.index]? = some frame) {a a' : Value} (ha : Value.Renamed w a a') (x : String) :
    Renamed w (h.define env x a) (h'.define env (frame.names x) a') where
  size := (size_define ..).trans hh.size
  size' := (size_define ..).trans hh.size'
  parents other frame' hf' := by
    rw [parent?_define, parent?_define]
    exact hh.parents other frame' hf'
  slots other frame' hf' := by
    have hlt := (List.getElem?_eq_some_iff.mp hf).1
    by_cases he : env = other
    · subst he
      obtain rfl : frame = frame' := Option.some.inj (hf.symm.trans hf')
      rw [slots_define_self (hh.size.symm ▸ hlt), slots_define_self (hh.size'.symm ▸ hlt)]
      exact (hh.slots env frame hf).set ha x
    · rw [slots_define_of_ne he, slots_define_of_ne he]
      exact hh.slots other frame' hf'
  globals := hh.globals
  objects := hh.objects
  fields := hh.fields
  nextId := hh.nextId

theorem pushEnv (hh : Renamed w h h') (parent : EnvId) (ρ : NameMap) {s s' : Slots Value}
    (hs : Slots.Related ρ (Value.Renamed w) s s') :
    Renamed (w ++ [⟨some parent, ρ⟩]) (h.pushEnv (some parent) s)
      (h'.pushEnv (some parent) s') := by
  have hw : w <+: w ++ [⟨some parent, ρ⟩] := List.prefix_append ..
  have hnew : h.nextEnv = ⟨w.length⟩ := congrArg EnvId.mk hh.size
  have hnew' : h'.nextEnv = ⟨w.length⟩ := congrArg EnvId.mk hh.size'
  -- A frame of the new world is the new one, or an old one.
  have hcases : ∀ (env : EnvId) frame, (w ++ [⟨some parent, ρ⟩])[env.index]? = some frame →
      w[env.index]? = some frame ∧ env.index < w.length ∨
        env = ⟨w.length⟩ ∧ frame = ⟨some parent, ρ⟩ := by
    intro env frame hf
    by_cases hlt : env.index < w.length
    · rw [List.getElem?_append_left hlt] at hf
      exact .inl ⟨hf, hlt⟩
    · have hi : env.index = w.length := by
        have := (List.getElem?_eq_some_iff.mp hf).1
        rw [List.length_append, List.length_singleton] at this
        omega
      rw [hi, List.getElem?_concat_length] at hf
      exact .inr ⟨congrArg EnvId.mk hi, (Option.some.inj hf).symm⟩
  refine ⟨?_, ?_, fun env frame hf => ?_, fun env frame hf => ?_, hh.globals.mono hw, hh.objects,
    fun object x => ?_, hh.nextId⟩
  · rw [size_pushEnv, hh.size, List.length_append, List.length_singleton]
  · rw [size_pushEnv, hh.size', List.length_append, List.length_singleton]
  · rcases hcases env frame hf with ⟨hold, hlt⟩ | ⟨rfl, rfl⟩
    · rw [parent?_pushEnv_of_lt (hh.size.symm ▸ hlt), parent?_pushEnv_of_lt (hh.size'.symm ▸ hlt)]
      exact hh.parents env frame hold
    · exact ⟨hnew ▸ parent?_pushEnv_self .., hnew' ▸ parent?_pushEnv_self ..⟩
  · rcases hcases env frame hf with ⟨hold, hlt⟩ | ⟨rfl, rfl⟩
    · rw [slots_pushEnv_of_lt (hh.size.symm ▸ hlt), slots_pushEnv_of_lt (hh.size'.symm ▸ hlt)]
      exact (hh.slots env frame hold).values_mono hw
    · have hself : (h.pushEnv (some parent) s).slots ⟨w.length⟩ = s := by
        rw [← hnew, slots_pushEnv_self]
      have hself' : (h'.pushEnv (some parent) s').slots ⟨w.length⟩ = s' := by
        rw [← hnew', slots_pushEnv_self]
      rw [hself, hself']
      exact hs.values_mono hw
  · have hx := hh.fields object x
    show Option.Rel _ (h.field? object x) (h'.field? object x)
    generalize h.field? object x = o, h'.field? object x = o' at hx ⊢
    cases hx with
    | none => exact .none
    | some ha => exact .some (ha.mono hw)

theorem pushObject (hh : Renamed w h h') : Renamed w h.pushObject h'.pushObject where
  size := hh.size
  size' := hh.size'
  parents := hh.parents
  slots := hh.slots
  globals := hh.globals
  objects := by simp [Heap.pushObject, hh.objects]
  fields object x := by
    rw [field?_pushObject_eq, field?_pushObject_eq]
    exact hh.fields object x
  nextId := hh.nextId

theorem setField (hh : Renamed w h h') (object : ObjectId) (x : String) {a a' : Value}
    (ha : Value.Renamed w a a') : Renamed w (h.setField object x a) (h'.setField object x a') where
  size := hh.size
  size' := hh.size'
  parents := hh.parents
  slots := hh.slots
  globals := hh.globals
  objects := by simp [Heap.setField, hh.objects]
  fields other y := by
    rw [field?_setField_eq, field?_setField_eq, hh.objects]
    split
    · exact .some ha
    · exact hh.fields other y
  nextId := hh.nextId

theorem takeId (hh : Renamed w h h') : Renamed w h.takeId h'.takeId where
  size := hh.size
  size' := hh.size'
  parents := hh.parents
  slots := hh.slots
  globals := hh.globals
  objects := hh.objects
  fields := hh.fields
  nextId := congrArg (· + 1) hh.nextId

end Heap.Renamed

end ClassScript
