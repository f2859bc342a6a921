/-!
# Slots

Slots hold one value for each of some names and keep the order in which the
names first came.  The variables of a scope, the fields of an object and the
methods of a class are slots.

Setting a name that is there already replaces its value and leaves the order
alone; a new name comes last.
-/

namespace ClassScript

/-- Names with their values, in the order in which the names first came. -/
structure Slots (α : Type) where
  /-- The names and their values. -/
  entries : List (String × α)
deriving Repr

namespace Slots

variable {α : Type}

/-- No names. -/
def empty : Slots α := ⟨[]⟩

instance : EmptyCollection (Slots α) := ⟨empty⟩

instance : Inhabited (Slots α) := ⟨empty⟩

/-- The value for a name in a list of entries. -/
def find? (name : String) : List (String × α) → Option α
  | [] => none
  | (key, value) :: rest => if key = name then some value else find? name rest

/-- A list of entries after a name is set. -/
def replace (name : String) (value : α) : List (String × α) → List (String × α)
  | [] => [(name, value)]
  | (key, old) :: rest =>
      if key = name then (key, value) :: rest else (key, old) :: replace name value rest

/-- The value for a name. -/
def get? (s : Slots α) (name : String) : Option α := find? name s.entries

/-- Whether there is a value for a name. -/
def contains (s : Slots α) (name : String) : Bool := (s.get? name).isSome

/-- The slots after a name is set to a value. -/
def set (s : Slots α) (name : String) (value : α) : Slots α := ⟨replace name value s.entries⟩

/-- The names, in order. -/
def names (s : Slots α) : List String := s.entries.map Prod.fst

/-- The slots with a single name. -/
def single (name : String) (value : α) : Slots α := ⟨[(name, value)]⟩

/-! ## Looking up after setting -/

theorem find?_replace (name other : String) (value : α) (entries : List (String × α)) :
    find? other (replace name value entries) =
      if name = other then some value else find? other entries := by
  induction entries with
  | nil => simp [replace, find?]
  | cons e rest ih =>
    obtain ⟨key, old⟩ := e
    by_cases hk : key = name
    · subst hk
      by_cases ho : key = other <;> simp [replace, find?, ho]
    · by_cases ho : key = other
      · subst ho
        simp [replace, find?, hk, Ne.symm hk]
      · simp [replace, find?, hk, ho, ih]

@[simp] theorem get?_empty (name : String) : (empty : Slots α).get? name = none := rfl

@[simp] theorem get?_set_self (s : Slots α) (name : String) (value : α) :
    (s.set name value).get? name = some value := by
  simp [get?, set, find?_replace]

theorem get?_set_of_ne (s : Slots α) {name other : String} (value : α) (h : name ≠ other) :
    (s.set name value).get? other = s.get? other := by
  simp [get?, set, find?_replace, h]

/-- Setting a name keeps the order of the names and puts a new one last. -/
theorem names_set (s : Slots α) (name : String) (value : α) :
    (s.set name value).names = if s.contains name then s.names else s.names ++ [name] := by
  suffices h : ∀ entries : List (String × α),
      (replace name value entries).map Prod.fst =
        if (find? name entries).isSome then entries.map Prod.fst
        else entries.map Prod.fst ++ [name] from h s.entries
  intro entries
  induction entries with
  | nil => simp [replace, find?]
  | cons e rest ih =>
    obtain ⟨key, old⟩ := e
    by_cases hk : key = name
    · simp [replace, find?, hk]
    · simp only [replace, find?, hk, if_false, List.map_cons, ih]
      split <;> simp

end Slots

end ClassScript
