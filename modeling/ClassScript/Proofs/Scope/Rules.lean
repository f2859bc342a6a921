import ClassScript.Diagnostic
import ClassScript.Proofs.Syntax.Parts

/-!
# The rules for names

The rules of a program say of each *spot* in it whether it is allowed where it stands.  A
spot is an expression, a statement, a method, a declared name or the superclass of a class.
Where it stands is told by its *enclosures*, the innermost first: local scopes with the
names that were declared there before, initializers of variables, functions and class
bodies.  The globals are no enclosure.

`Spot.children` lists the spots directly inside a spot, in the order in which a program is
checked.  So a spot has a position, which tells its way from the outermost statements, and
positions are ordered as the spots are checked.  `Breaks` has one rule for each thing that
is not allowed.  Nothing here walks over a program with a stack of scopes.
-/

namespace ClassScript

/-! ## Spots and what encloses them -/

/-- What encloses a spot. -/
inductive Enclosure where
  /-- A local scope, with the names that were declared in it before. -/
  | scope (names : List String)
  /-- The initializer of the declaration of a variable. -/
  | initializer (name : String)
  /-- The parameters and the body of a function, which may be the initializer of a class. -/
  | function (isInitializer : Bool)
  /-- The methods of a class, which may have a superclass. -/
  | classBody (derived : Bool)
deriving DecidableEq, Repr

/-- A place of a program. -/
inductive Spot where
  | expr (e : Expr Unit)
  | stmt (s : Stmt Unit)
  | method (f : Function Unit)
  /-- A name where it is declared. -/
  | declared (name : Name)
  /-- The superclass in the declaration of a class. -/
  | superclass (name parent : Name)

/-- Spots with what encloses each of them. -/
abbrev Spots := List (List Enclosure × Spot)

/-- The kind of the closest function: whether it is the initializer of a class. -/
def closestFunction : List Enclosure → Option Bool
  | [] => none
  | .function isInitializer :: _ => some isInitializer
  | _ :: outer => closestFunction outer

/-- The kind of the closest class: whether it has a superclass. -/
def closestClass : List Enclosure → Option Bool
  | [] => none
  | .classBody derived :: _ => some derived
  | _ :: outer => closestClass outer

/-! ## Spots inside of spots -/

/-- Parameters, which are declared one after another in the scope of their function. -/
def parameterSpots (outer : List Enclosure) (names : List String) : List Name → Spots
  | [] => []
  | p :: rest =>
    (.scope names :: outer, .declared p) :: parameterSpots outer (names ++ [p.text]) rest

/-- The statements of a local scope.  Each one comes after the names that are declared by those
before it. -/
def bodySpots (outer : List Enclosure) (names : List String) : List (Stmt Unit) → Spots
  | [] => []
  | s :: rest =>
    (.scope names :: outer, .stmt s) :: bodySpots outer (names ++ declaredNames [s]) rest

/-- The parameters and the body of a function, which share a scope. -/
def functionSpots (outer : List Enclosure) (isInitializer : Bool) (parameters : List Name)
    (body : List (Stmt Unit)) : Spots :=
  parameterSpots (.function isInitializer :: outer) [] parameters ++
    bodySpots (.function isInitializer :: outer) (parameters.map Name.text) body

/-- The branches of a choice that has been started. -/
def elifSpots (outer : List Enclosure) : List (Elif Unit) → Spots
  | [] => []
  | .mk condition body :: rest =>
    (outer, .expr condition) :: (outer, .stmt body) :: elifSpots outer rest

/-- The spots directly inside an expression.  A field is assigned to after the value is
found. -/
def Expr.spots (outer : List Enclosure) : Expr Unit → Spots
  | .literal _ => []
  | .grouping inner => [(outer, .expr inner)]
  | .unary _ _ operand => [(outer, .expr operand)]
  | .binary left _ _ right => [(outer, .expr left), (outer, .expr right)]
  | .logical left _ _ right => [(outer, .expr left), (outer, .expr right)]
  | .variable _ => []
  | .assign _ value => [(outer, .expr value)]
  | .call callee _ arguments =>
    (outer, .expr callee) :: arguments.map fun e => (outer, .expr e)
  | .get object _ => [(outer, .expr object)]
  | .set object _ value => [(outer, .expr value), (outer, .expr object)]
  | .this _ _ => []
  | .super _ _ _ => []
  | .lambda _ parameters body => functionSpots outer false parameters body

/-- The spots directly inside a statement. -/
def Stmt.spots (outer : List Enclosure) : Stmt Unit → Spots
  | .expression value => [(outer, .expr value)]
  | .print value => [(outer, .expr value)]
  | .var name none => [(outer, .declared name)]
  | .var name (some value) =>
    [(outer, .declared name), (.initializer name.text :: outer, .expr value)]
  | .block body => bodySpots outer [] body
  | .ifStmt condition thenBranch elifs elseBranch =>
    (outer, .expr condition) :: (outer, .stmt thenBranch) :: (elifSpots outer elifs ++
      match elseBranch with
      | none => []
      | some s => [(outer, .stmt s)])
  | .whileStmt condition body => [(outer, .expr condition), (outer, .stmt body)]
  | .functionDecl f =>
    (outer, .declared f.name) :: functionSpots outer false f.parameters f.body
  | .returnStmt _ none => []
  | .returnStmt _ (some value) => [(outer, .expr value)]
  | .breakStmt _ => []
  | .classDecl name superclass methods =>
    (outer, .declared name) ::
      ((match superclass with
        | none => []
        | some parent => [(outer, .superclass name parent.name)]) ++
      methods.map fun f => (.classBody superclass.isSome :: outer, .method f))

/-- The spots directly inside a spot, in the order in which they are checked. -/
def Spot.children (outer : List Enclosure) : Spot → Spots
  | .expr e => e.spots outer
  | .stmt s => s.spots outer
  | .method f => functionSpots outer (f.name.text = initializerName) f.parameters f.body
  | .declared _ => []
  | .superclass _ parent => [(outer, .expr (.variable ⟨parent, ()⟩))]

/-- The outermost statements of a program. -/
def topSpots (p : Program Unit) : Spots := p.map fun s => ([], .stmt s)

/-! ## Positions -/

/-- The way to a spot: the place of each spot around it, and of the spot itself, among its
siblings.  Positions are ordered like words. -/
abbrev Position := List Nat

/-- The spot at a position, with what encloses it. -/
inductive At : Spots → Position → List Enclosure → Spot → Prop where
  | here {spots : Spots} {i : Nat} {outer : List Enclosure} {spot : Spot} :
      spots[i]? = some (outer, spot) → At spots [i] outer spot
  | inside {spots : Spots} {i : Nat} {outer inner : List Enclosure} {spot found : Spot}
      {position : Position} : spots[i]? = some (outer, spot) →
      At (spot.children outer) position inner found → At spots (i :: position) inner found

/-! ## The rules -/

/-- A spot that stands where it is not allowed: what it breaks, and the word to blame. -/
inductive Breaks : List Enclosure → Spot → Name → ScopeError → Prop where
  /-- A name is declared in a local scope that has it already. -/
  | alreadyDeclared {names : List String} {outer : List Enclosure} {name : Name} :
      name.text ∈ names → Breaks (.scope names :: outer) (.declared name) name .alreadyDeclared
  /-- A variable is read in its own initializer in a local scope, and in no function there. -/
  | readInOwnInitializer {names : List String} {outer : List Enclosure} {x : String}
      {target : Reference Unit} : target.name.text = x →
      Breaks (.initializer x :: .scope names :: outer) (.expr (.variable target)) target.name
        .readInOwnInitializer
  /-- A `return` stands outside of all functions. -/
  | returnAtTopLevel {outer : List Enclosure} {line : Nat} {value : Option (Expr Unit)} :
      closestFunction outer = none →
      Breaks outer (.stmt (.returnStmt line value)) ⟨"return", line⟩ .returnAtTopLevel
  /-- The initializer of a class returns a value. -/
  | returnValueFromInitializer {outer : List Enclosure} {line : Nat} {value : Expr Unit} :
      closestFunction outer = some true →
      Breaks outer (.stmt (.returnStmt line (some value))) ⟨"return", line⟩
        .returnValueFromInitializer
  /-- A class has its own name as that of its superclass. -/
  | inheritsFromItself {outer : List Enclosure} {name parent : Name} :
      parent.text = name.text → Breaks outer (.superclass name parent) parent .inheritsFromItself
  /-- A `this` stands outside of all classes. -/
  | thisOutsideClass {outer : List Enclosure} {line : Nat} {binding : Unit} :
      closestClass outer = none →
      Breaks outer (.expr (.this line binding)) ⟨"this", line⟩ .thisOutsideClass
  /-- A `super` stands outside of all classes. -/
  | superOutsideClass {outer : List Enclosure} {line : Nat} {method : Name} {binding : Unit} :
      closestClass outer = none →
      Breaks outer (.expr (.super line method binding)) ⟨"super", line⟩ .superOutsideClass
  /-- A `super` stands in a class that has no superclass. -/
  | superWithoutSuperclass {outer : List Enclosure} {line : Nat} {method : Name}
      {binding : Unit} : closestClass outer = some false →
      Breaks outer (.expr (.super line method binding)) ⟨"super", line⟩ .superWithoutSuperclass

/-- A spot breaks at most one rule. -/
theorem Breaks.unique {outer : List Enclosure} {spot : Spot} {word word' : Name}
    {error error' : ScopeError} (h : Breaks outer spot word error)
    (h' : Breaks outer spot word' error') : word' = word ∧ error' = error := by
  cases h <;> cases h' <;> first | exact ⟨rfl, rfl⟩ | simp_all

/-- A place where a program breaks a rule. -/
structure Violation where
  /-- Where it is. -/
  position : Position
  /-- The word to blame. -/
  word : Name
  /-- The rule that is broken. -/
  error : ScopeError
deriving DecidableEq, Repr

namespace Violation

/-- The rule is broken at the position among the spots. -/
def Among (spots : Spots) (v : Violation) : Prop :=
  ∃ outer spot, At spots v.position outer spot ∧ Breaks outer spot v.word v.error

/-- The rule is broken at the position in the program. -/
def Occurs (p : Program Unit) (v : Violation) : Prop := v.Among (topSpots p)

/-- The report of a violation: the message of its rule at its word. -/
def report (v : Violation) : Diagnostic := ⟨v.word.line, .text v.word.text, .scope v.error⟩

/-- The violation, seen from the spots around the one at the given place. -/
def below (i : Nat) (v : Violation) : Violation := { v with position := i :: v.position }

/-- The violation, with more spots before it. -/
def shift (n : Nat) (v : Violation) : Violation :=
  { v with position := match v.position with
      | [] => []
      | i :: rest => (n + i) :: rest }

end Violation

/-! ## Lists of violations -/

/-- The violations among the spots are exactly those of the list, in the order of their
positions. -/
structure Lists (spots : Spots) (vs : List Violation) : Prop where
  sorted : vs.Pairwise fun v w => v.position < w.position
  mem_iff : ∀ v, v ∈ vs ↔ v.Among spots

/-- The reports are those of the violations among the spots, each of them once and in order. -/
def AccountedFor (spots : Spots) (reports : List Diagnostic) : Prop :=
  ∃ vs, Lists spots vs ∧ reports = vs.map Violation.report

theorem At.position_ne_nil {spots : Spots} {position : Position} {outer : List Enclosure}
    {spot : Spot} (h : At spots position outer spot) : position ≠ [] := by
  cases h <;> exact List.cons_ne_nil _ _

theorem At.nil {position : Position} {outer : List Enclosure} {spot : Spot} :
    ¬ At [] position outer spot := by
  intro h
  cases h with
  | here h => cases h
  | inside h _ => cases h

theorem At.of_congr {spots spots' : Spots} {i j : Nat} {position : Position}
    {outer : List Enclosure} {spot : Spot} (hij : spots[i]? = spots'[j]?)
    (h : At spots (i :: position) outer spot) : At spots' (j :: position) outer spot := by
  cases h with
  | here h => exact .here (hij ▸ h)
  | inside h h' => exact .inside (hij ▸ h) h'

/-! ### One list after another -/

theorem Lists.nil : Lists [] [] where
  sorted := .nil
  mem_iff _ := ⟨nofun, fun ⟨_, _, h, _⟩ => h.nil.elim⟩

theorem AccountedFor.nil : AccountedFor [] [] := ⟨[], .nil, rfl⟩

theorem Violation.position_shift_lt {n : Nat} {v w : Violation}
    (h : v.position < w.position) : (v.shift n).position < (w.shift n).position := by
  obtain ⟨pv, _, _⟩ := v
  obtain ⟨pw, _, _⟩ := w
  cases pw with
  | nil => cases h
  | cons j pw =>
    cases pv with
    | nil => exact .nil
    | cons i pv =>
      rcases List.cons_lt_cons_iff.mp h with hij | ⟨rfl, hlt⟩
      · exact List.cons_lt_cons_iff.mpr (.inl (Nat.add_lt_add_left hij n))
      · exact List.cons_lt_cons_iff.mpr (.inr ⟨rfl, hlt⟩)

theorem Violation.Among.append_left {xs : Spots} (ys : Spots) {v : Violation} (h : v.Among xs) :
    v.Among (xs ++ ys) := by
  obtain ⟨outer, spot, h, hb⟩ := h
  obtain ⟨position, word, error⟩ := v
  refine ⟨outer, spot, ?_, hb⟩
  cases h with
  | here h => exact .here (List.getElem?_append_left (List.getElem?_eq_some_iff.mp h).1 ▸ h)
  | inside h h' =>
    exact .inside (List.getElem?_append_left (List.getElem?_eq_some_iff.mp h).1 ▸ h) h'

theorem Violation.Among.append_right (xs : Spots) {ys : Spots} {v : Violation} (h : v.Among ys) :
    (v.shift xs.length).Among (xs ++ ys) := by
  have hi : ∀ i, (xs ++ ys)[xs.length + i]? = ys[i]? := fun i => by
    rw [List.getElem?_append_right (Nat.le_add_right ..), Nat.add_sub_cancel_left]
  obtain ⟨outer, spot, h, hb⟩ := h
  refine ⟨outer, spot, ?_, hb⟩
  obtain ⟨position, word, error⟩ := v
  cases position with
  | nil => exact absurd rfl h.position_ne_nil
  | cons i rest => exact h.of_congr (hi i).symm

/-- A violation among the spots of two lists is one among the first or one among the second. -/
theorem Violation.Among.of_append {xs ys : Spots} {v : Violation} (h : v.Among (xs ++ ys)) :
    v.Among xs ∨ ∃ w : Violation, w.Among ys ∧ v = w.shift xs.length := by
  obtain ⟨outer, spot, h, hb⟩ := h
  obtain ⟨position, word, error⟩ := v
  cases position with
  | nil => exact absurd rfl h.position_ne_nil
  | cons i rest =>
    by_cases hi : i < xs.length
    · exact .inl ⟨outer, spot, h.of_congr (List.getElem?_append_left hi), hb⟩
    · obtain ⟨k, rfl⟩ := Nat.exists_eq_add_of_le (Nat.le_of_not_lt hi)
      refine .inr ⟨⟨k :: rest, word, error⟩, ⟨outer, spot, h.of_congr ?_, hb⟩, rfl⟩
      rw [List.getElem?_append_right (Nat.le_add_right ..), Nat.add_sub_cancel_left]

theorem Lists.append {xs ys : Spots} {vs ws : List Violation} (hv : Lists xs vs)
    (hw : Lists ys ws) : Lists (xs ++ ys) (vs ++ ws.map (Violation.shift xs.length)) where
  sorted := by
    refine List.pairwise_append.mpr ⟨hv.sorted, List.pairwise_map.mpr
      (hw.sorted.imp Violation.position_shift_lt), fun v hv' w hw' => ?_⟩
    obtain ⟨outer, spot, h, -⟩ := (hv.mem_iff v).mp hv'
    obtain ⟨w, hm, rfl⟩ := List.mem_map.mp hw'
    obtain ⟨outer', spot', h', -⟩ := (hw.mem_iff w).mp hm
    obtain ⟨pv, _, _⟩ := v
    obtain ⟨pw, _, _⟩ := w
    -- The first place of the one is a place of the first list, that of the other is behind it.
    cases pw with
    | nil => exact absurd rfl h'.position_ne_nil
    | cons j pw =>
      cases pv with
      | nil => exact absurd rfl h.position_ne_nil
      | cons i pv =>
        have hi : i < xs.length := by
          cases h with
          | here h => exact (List.getElem?_eq_some_iff.mp h).1
          | inside h _ => exact (List.getElem?_eq_some_iff.mp h).1
        exact List.cons_lt_cons_iff.mpr (.inl (Nat.lt_of_lt_of_le hi (Nat.le_add_right ..)))
  mem_iff v := by
    constructor
    · intro h
      rcases List.mem_append.mp h with h | h
      · exact ((hv.mem_iff v).mp h).append_left ys
      · obtain ⟨w, hm, rfl⟩ := List.mem_map.mp h
        exact ((hw.mem_iff w).mp hm).append_right xs
    · intro h
      rcases h.of_append with ha | ⟨w, ha, rfl⟩
      · exact List.mem_append_left _ ((hv.mem_iff v).mpr ha)
      · exact List.mem_append_right _ (List.mem_map_of_mem ((hw.mem_iff w).mpr ha))

theorem AccountedFor.append {xs ys : Spots} {ds es : List Diagnostic} (hx : AccountedFor xs ds)
    (hy : AccountedFor ys es) : AccountedFor (xs ++ ys) (ds ++ es) := by
  obtain ⟨vs, hv, rfl⟩ := hx
  obtain ⟨ws, hw, rfl⟩ := hy
  exact ⟨_, hv.append hw, by rw [List.map_append, List.map_map]; rfl⟩

/-! ### One spot and what is inside it -/

theorem Violation.position_below_lt {i : Nat} {v w : Violation}
    (h : v.position < w.position) : (v.below i).position < (w.below i).position :=
  List.cons_lt_cons_iff.mpr (.inr ⟨rfl, h⟩)

theorem Violation.Among.below {outer : List Enclosure} {spot : Spot} {v : Violation}
    (h : v.Among (spot.children outer)) : (v.below 0).Among [(outer, spot)] := by
  obtain ⟨inner, found, h, hb⟩ := h
  exact ⟨inner, found, .inside rfl h, hb⟩

private theorem getElem?_singleton_eq_some {α : Type} {a b : α} {i : Nat} (h : [a][i]? = some b) :
    i = 0 ∧ a = b := by
  rw [List.getElem?_singleton] at h
  split at h
  · exact ⟨‹_›, Option.some.inj h⟩
  · cases h

/-- A violation among a single spot is one of the spot itself or one of what is inside it. -/
theorem Violation.Among.of_single {outer : List Enclosure} {spot : Spot} {v : Violation}
    (h : v.Among [(outer, spot)]) :
    (v.position = [0] ∧ Breaks outer spot v.word v.error) ∨
      ∃ w : Violation, w.Among (spot.children outer) ∧ v = w.below 0 := by
  obtain ⟨inner, found, h, hb⟩ := h
  obtain ⟨position, word, error⟩ := v
  cases h with
  | here h =>
    obtain ⟨rfl, hs⟩ := getElem?_singleton_eq_some h
    cases hs
    exact .inl ⟨rfl, hb⟩
  | inside h h' =>
    obtain ⟨rfl, hs⟩ := getElem?_singleton_eq_some h
    cases hs
    exact .inr ⟨⟨_, word, error⟩, ⟨inner, found, h', hb⟩, rfl⟩

/-- A spot that breaks no rule. -/
theorem AccountedFor.single {outer : List Enclosure} {spot : Spot} {ds : List Diagnostic}
    (hn : ∀ word error, ¬ Breaks outer spot word error)
    (h : AccountedFor (spot.children outer) ds) : AccountedFor [(outer, spot)] ds := by
  obtain ⟨vs, hv, rfl⟩ := h
  refine ⟨vs.map (Violation.below 0), ⟨List.pairwise_map.mpr
    (hv.sorted.imp Violation.position_below_lt), fun v => ⟨fun h => ?_, fun h => ?_⟩⟩,
    by rw [List.map_map]; rfl⟩
  · obtain ⟨w, hw, rfl⟩ := List.mem_map.mp h
    exact ((hv.mem_iff w).mp hw).below
  · rcases h.of_single with ⟨-, hb⟩ | ⟨w, hw, rfl⟩
    · exact absurd hb (hn _ _)
    · exact List.mem_map_of_mem ((hv.mem_iff w).mpr hw)

/-- A spot that breaks one rule, which is reported before what is inside it. -/
theorem AccountedFor.broken {outer : List Enclosure} {spot : Spot} {ds : List Diagnostic}
    {word : Name} {error : ScopeError} (hb : Breaks outer spot word error)
    (h : AccountedFor (spot.children outer) ds) :
    AccountedFor [(outer, spot)] (⟨word.line, .text word.text, .scope error⟩ :: ds) := by
  obtain ⟨vs, hv, rfl⟩ := h
  refine ⟨⟨[0], word, error⟩ :: vs.map (Violation.below 0), ⟨List.pairwise_cons.mpr
    ⟨fun v h => ?_, List.pairwise_map.mpr (hv.sorted.imp Violation.position_below_lt)⟩,
    fun v => ⟨fun h => ?_, fun h => ?_⟩⟩, by rw [List.map_cons, List.map_map]; rfl⟩
  · obtain ⟨w, hw, rfl⟩ := List.mem_map.mp h
    obtain ⟨inner, found, hat, -⟩ := (hv.mem_iff w).mp hw
    refine List.cons_lt_cons_iff.mpr (.inr ⟨rfl, ?_⟩)
    obtain ⟨position, _, _⟩ := w
    cases position with
    | nil => exact absurd rfl hat.position_ne_nil
    | cons i rest => exact .nil
  · rcases List.mem_cons.mp h with rfl | h
    · exact ⟨outer, spot, .here rfl, hb⟩
    · obtain ⟨w, hw, rfl⟩ := List.mem_map.mp h
      exact ((hv.mem_iff w).mp hw).below
  · rcases h.of_single with ⟨hp, hb'⟩ | ⟨w, hw, rfl⟩
    · obtain ⟨position, word', error'⟩ := v
      obtain ⟨rfl, rfl⟩ := hb.unique hb'
      obtain rfl : position = [0] := hp
      exact List.mem_cons_self ..
    · exact List.mem_cons_of_mem _ (List.mem_map_of_mem ((hv.mem_iff w).mpr hw))

end ClassScript
