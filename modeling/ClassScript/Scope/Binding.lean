import ClassScript.Syntax.Tree

/-!
# Bindings

Before a program runs, every reference in it is bound: to a local scope that
encloses it, given by the number of scopes between, or else to the globals.
-/

namespace ClassScript

/-- Where a reference finds its value. -/
inductive Binding where
  /-- Among the globals. -/
  | global
  /-- In the scope that many steps out, 0 being the innermost one. -/
  | local (distance : Nat)
deriving DecidableEq, Repr

/-- The expressions that refer to a variable of a scope. -/
inductive ReferenceKind where
  | variable
  | assign
  | this
  | super
deriving DecidableEq, Repr

/-- A reference that was bound to a local scope. -/
structure LocalReference where
  /-- What kind of expression it is. -/
  kind : ReferenceKind
  /-- The name it refers to, `this` and `super` included. -/
  name : Name
  /-- The number of scopes between the reference and the one that was found. -/
  distance : Nat
deriving DecidableEq, Repr

end ClassScript
