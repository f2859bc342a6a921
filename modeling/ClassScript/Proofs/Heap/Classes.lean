import ClassScript.Evaluation
import Mathlib.Data.List.Chain

/-!
# Lines of classes

The *line* of a class is the class itself, its superclass, the superclass of that one and so
on.  The method that a class finds is that of the first class in its line which has one
(`Class.findMethod?_eq_findSome?`), and the method that a class has of its own is the last one
of its name that is written in the declaration (`Run.get?_classMethods`).
-/

namespace ClassScript

namespace Class

/-- What holds of a class if it holds of its superclass holds of all classes. -/
@[elab_as_elim] theorem superInduction {P : Class → Prop}
    (step : ∀ c, (∀ parent, c.superclass = some parent → P parent) → P c) : ∀ c, P c
  | mk _ _ none _ => step _ fun parent hp => by cases hp
  | mk _ _ (some definition) _ => step _ fun parent hp => by
    cases hp
    exact superInduction step definition

/-- The class and its superclasses, the closest first. -/
def line : Class → List Class
  | mk id name superclass methods =>
    mk id name superclass methods ::
      match superclass with
      | none => []
      | some parent => parent.line

theorem line_of_none {c : Class} (hs : c.superclass = none) : c.line = [c] := by
  obtain ⟨id, name, superclass, methods⟩ := c
  obtain rfl : superclass = none := hs
  rfl

theorem line_of_some {c parent : Class} (hs : c.superclass = some parent) :
    c.line = c :: parent.line := by
  obtain ⟨id, name, superclass, methods⟩ := c
  obtain rfl : superclass = some parent := hs
  rfl

theorem self_mem_line (c : Class) : c ∈ c.line := by
  cases hs : c.superclass with
  | none => simp [line_of_none hs]
  | some parent => simp [line_of_some hs]

/-- The line goes from each class to its superclass. -/
theorem isChain_line (c : Class) : c.line.IsChain fun k parent => k.superclass = some parent := by
  induction c using superInduction with
  | step c ih =>
    cases hs : c.superclass with
    | none => simp [line_of_none hs]
    | some parent =>
      rw [line_of_some hs]
      have hparent := ih parent hs
      cases hp : parent.superclass with
      | none =>
        rw [line_of_none hp] at hparent ⊢
        exact .cons_cons hs hparent
      | some other =>
        rw [line_of_some hp] at hparent ⊢
        exact .cons_cons hs hparent

/-- The line ends with a class that has no superclass. -/
theorem getLast?_line (c : Class) :
    ∃ base, c.line.getLast? = some base ∧ base.superclass = none := by
  induction c using superInduction with
  | step c ih =>
    cases hs : c.superclass with
    | none => exact ⟨c, by simp [line_of_none hs], hs⟩
    | some parent =>
      obtain ⟨base, hlast, hbase⟩ := ih parent hs
      refine ⟨base, ?_, hbase⟩
      rw [line_of_some hs, List.getLast?_cons, hlast]
      rfl

/-- The method of a class, or else that of its superclass. -/
theorem findMethod?_eq_or (c : Class) (method : String) :
    c.findMethod? method =
      (c.methods.get? method).or (c.superclass.bind (·.findMethod? method)) := by
  obtain ⟨id, name, superclass, methods⟩ := c
  cases superclass <;> simp only [findMethod?, Class.methods, Class.superclass] <;>
    cases methods.get? method <;> rfl

/-- The method that a class finds is that of the first class in its line which has one. -/
theorem findMethod?_eq_findSome? (c : Class) (method : String) :
    c.findMethod? method = c.line.findSome? fun k => k.methods.get? method := by
  induction c using superInduction with
  | step c ih =>
    rw [findMethod?_eq_or]
    cases hs : c.superclass with
    | none =>
      rw [line_of_none hs]
      cases hm : c.methods.get? method <;> simp [hm]
    | some parent =>
      rw [line_of_some hs, List.findSome?_cons, ← ih parent hs]
      cases hm : c.methods.get? method <;> rfl

/-- The initializer that counts for the number of arguments is the closest one. -/
theorem arity_eq_findSome? (c : Class) :
    c.arity = ((c.line.findSome? fun k => k.methods.get? initializerName).map
      (·.parameters.length)).getD 0 := by
  rw [arity, ← findMethod?_eq_findSome?]
  cases c.findMethod? initializerName <;> rfl

end Class

namespace Run

/-- The code of a method that is declared in the given environment. -/
def methodCode (scope : EnvId) (f : Function Binding) : Closure :=
  ⟨some f.name.text, f.parameters, f.body, scope, f.name.text = initializerName⟩

/-- Of the methods with one name, the last one stays. -/
theorem get?_classMethods (scope : EnvId) (methods : List (Function Binding))
    (slots : Slots Closure) (x : String) :
    (classMethods scope methods slots).get? x =
      ((methods.filter (·.name.text = x)).getLast?.map (methodCode scope)).or (slots.get? x) := by
  induction methods generalizing slots with
  | nil => simp [classMethods]
  | cons f rest ih =>
    obtain ⟨name, parameters, body⟩ := f
    rw [classMethods, ih]
    by_cases hn : name.text = x
    · subst hn
      rw [List.filter_cons_of_pos (by simp [Function.name]), List.getLast?_cons,
        Slots.get?_set_self]
      cases (rest.filter (·.name.text = name.text)).getLast? <;> rfl
    · rw [List.filter_cons_of_neg (by simp [Function.name, hn]),
        Slots.get?_set_of_ne _ _ hn]

end Run

end ClassScript
