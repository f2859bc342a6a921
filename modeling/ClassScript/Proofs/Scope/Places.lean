import ClassScript.Proofs.Scope.Rules
import ClassScript.Proofs.Syntax.Legal

/-!
# Spots of a program

What stands where in a program follows from the spots directly inside each spot
(`At.child`).  In a legal program every spot is legal (`At.legal`).  A program without
violations declares a name only once in each local scope, so a name that stands for a
parameter or a variable there stands for no function and no class
(`ne_of_declared`).

A walk that goes on with a part of a tree goes one position further in.  `Stands` says what
is at a position, whatever encloses it, and `StandFrom` says it of parts that stand side by
side, such as arguments or statements.
-/

namespace ClassScript

/-! ## One spot further in -/

/-- A spot directly inside another one. -/
theorem At.child {spots : Spots} {position : Position} {outer inner : List Enclosure}
    {spot found : Spot} {i : Nat} (h : At spots position outer spot)
    (hi : (spot.children outer)[i]? = some (inner, found)) :
    At spots (position ++ [i]) inner found := by
  induction h with
  | here h => exact .inside h (.here hi)
  | inside h _ ih => exact .inside h (ih hi)

/-- There is one spot at a position. -/
theorem At.unique {spots : Spots} {position : Position} {outer outer' : List Enclosure}
    {spot spot' : Spot} (h : At spots position outer spot) (h' : At spots position outer' spot') :
    outer' = outer ∧ spot' = spot := by
  induction h with
  | here hi =>
    cases h' with
    | here hi' => exact Prod.mk.inj (Option.some.inj (hi'.symm.trans hi))
    | inside _ hnil => exact absurd rfl hnil.position_ne_nil
  | inside hi hat ih =>
    cases h' with
    | here _ => exact absurd rfl hat.position_ne_nil
    | inside hi' hat' =>
      obtain ⟨rfl, rfl⟩ := Prod.mk.inj (Option.some.inj (hi'.symm.trans hi))
      exact ih hat'

/-- The spots of parameters are their declarations. -/
theorem map_snd_parameterSpots (outer : List Enclosure) (names : List String)
    (parameters : List Name) :
    (parameterSpots outer names parameters).map Prod.snd = parameters.map .declared := by
  induction parameters generalizing names with
  | nil => rfl
  | cons q rest ih => exact congrArg _ (ih _)

/-- The spots of a body are its statements. -/
theorem map_snd_bodySpots (outer : List Enclosure) (names : List String)
    (body : List (Stmt Unit)) : (bodySpots outer names body).map Prod.snd = body.map .stmt := by
  induction body generalizing names with
  | nil => rfl
  | cons s rest ih => exact congrArg _ (ih _)

theorem length_parameterSpots (outer : List Enclosure) (names : List String)
    (parameters : List Name) :
    (parameterSpots outer names parameters).length = parameters.length := by
  rw [← List.length_map, map_snd_parameterSpots, List.length_map]

/-- A statement stands behind the declarations in front of it. -/
theorem getElem?_bodySpots (outer : List Enclosure) (names : List String)
    (body : List (Stmt Unit)) (i : Nat) :
    (bodySpots outer names body)[i]? = body[i]?.map fun s =>
      (.scope (names ++ declaredNames (body.take i)) :: outer, .stmt s) := by
  induction body generalizing names i with
  | nil => rfl
  | cons s rest ih =>
    cases i with
    | zero => simp [bodySpots, declaredNames]
    | succ i =>
      rw [List.take_succ_cons, declaredNames_cons s (rest.take i)]
      simp [bodySpots, ih]

/-- The conditions and branches of a choice that has been started. -/
def elifsWithin : List (Elif Unit) → List Spot
  | [] => []
  | .mk condition body :: rest => .expr condition :: .stmt body :: elifsWithin rest

theorem map_snd_elifSpots (outer : List Enclosure) (branches : List (Elif Unit)) :
    (elifSpots outer branches).map Prod.snd = elifsWithin branches := by
  induction branches with
  | nil => rfl
  | cons branch rest ih =>
    obtain ⟨condition, body⟩ := branch
    simp [elifSpots, elifsWithin, ih]

/-- A branch has a condition and a body. -/
theorem length_elifsWithin (branches : List (Elif Unit)) :
    (elifsWithin branches).length = 2 * branches.length := by
  induction branches with
  | nil => rfl
  | cons branch rest ih =>
    obtain ⟨condition, body⟩ := branch
    rw [elifsWithin, List.length_cons, List.length_cons, List.length_cons, ih]
    omega

/-! ## Legal spots -/

/-- Legal spots.  What stands for a superclass may be any variable. -/
def Spot.Legal : Spot → Prop
  | .expr (.variable _) => True
  | .expr e => e.Legal
  | .stmt s => s.Legal
  | .method f => f.Legal
  | .declared name => name.Ordinary
  | .superclass _ _ => True

theorem Spot.legal_expr {e : Expr Unit} (h : e.Legal) : Spot.Legal (.expr e) := by
  cases e <;> trivial

/-- All spots of the list are legal. -/
def legalSpots (spots : Spots) : Prop := ∀ entry ∈ spots, entry.2.Legal

namespace legalSpots

variable {outer : List Enclosure} {spots more : Spots} {spot : Spot}

theorem nil : legalSpots [] := nofun

theorem cons (h : spot.Legal) (hs : legalSpots spots) : legalSpots ((outer, spot) :: spots) :=
  fun _ he => (List.mem_cons.mp he).elim (· ▸ h) (hs _)

theorem append (hs : legalSpots spots) (hm : legalSpots more) : legalSpots (spots ++ more) :=
  fun _ he => (List.mem_append.mp he).elim (hs _) (hm _)

theorem exprs : ∀ {es : List (Expr Unit)}, legalExprs es →
    legalSpots (es.map fun e => (outer, .expr e))
  | [], _ => nil
  | _ :: _, h => cons (Spot.legal_expr h.1) (exprs h.2)

theorem parameters : ∀ {names : List String} {ps : List Name}, (∀ p ∈ ps, p.Ordinary) →
    legalSpots (parameterSpots outer names ps)
  | _, [], _ => nil
  | _, _ :: _, h => cons (h _ (List.mem_cons_self ..))
      (parameters fun p hp => h p (List.mem_cons_of_mem _ hp))

theorem body : ∀ {names : List String} {ss : List (Stmt Unit)}, legalStmts ss →
    legalSpots (bodySpots outer names ss)
  | _, [], _ => nil
  | _, _ :: _, h => cons h.1 (body h.2)

theorem function {isInitializer : Bool} {ps : List Name} {ss : List (Stmt Unit)}
    (hp : ∀ p ∈ ps, p.Ordinary) (hs : legalStmts ss) :
    legalSpots (functionSpots outer isInitializer ps ss) :=
  (parameters hp).append (body hs)

theorem elifs : ∀ {branches : List (Elif Unit)}, legalElifs branches →
    legalSpots (elifSpots outer branches)
  | [], _ => nil
  | .mk _ _ :: _, h => cons (Spot.legal_expr h.1.1) (cons h.1.2.1 (elifs h.2))

theorem methods : ∀ {fs : List (Function Unit)}, legalFunctions fs →
    legalSpots (fs.map fun f => (outer, .method f))
  | [], _ => nil
  | _ :: _, h => cons h.1 (methods h.2)

end legalSpots

/-- In a legal expression every part is legal. -/
theorem Expr.Legal.spots {outer : List Enclosure} {e : Expr Unit} (h : e.Legal) :
    legalSpots (e.spots outer) := by
  cases e with
  | literal | «variable» | this | super => exact .nil
  | grouping | unary | get => exact .cons (Spot.legal_expr h) .nil
  | binary | logical => exact .cons (Spot.legal_expr h.1) (.cons (Spot.legal_expr h.2) .nil)
  | assign => exact .cons (Spot.legal_expr h.2) .nil
  | call => exact .cons (Spot.legal_expr h.1) (.exprs h.2)
  | set => exact .cons (Spot.legal_expr h.2) (.cons (Spot.legal_expr h.1) .nil)
  | lambda => exact .function h.1 h.2

/-- In a legal statement every part is legal. -/
theorem Stmt.Legal.spots {outer : List Enclosure} {s : Stmt Unit} (h : s.Legal) :
    legalSpots (s.spots outer) := by
  cases s with
  | expression | print => exact .cons (Spot.legal_expr h) .nil
  | var name initializer =>
    cases initializer with
    | none => exact .cons h .nil
    | some value => exact .cons h.1 (.cons (Spot.legal_expr h.2) .nil)
  | block => exact .body h
  | ifStmt condition thenBranch elifs elseBranch =>
    refine .cons (Spot.legal_expr h.1) (.cons h.2.1.1 (.append (.elifs h.2.2.1) ?_))
    cases elseBranch with
    | none => exact .nil
    | some s => exact .cons h.2.2.2.1 .nil
  | whileStmt => exact .cons (Spot.legal_expr h.1) (.cons h.2.1 .nil)
  | functionDecl f =>
    cases f with
    | mk name parameters body => exact .cons h.1 (.function h.2.1 h.2.2)
  | returnStmt line value =>
    cases value with
    | none => exact .nil
    | some value => exact .cons (Spot.legal_expr h) .nil
  | breakStmt => exact .nil
  | classDecl name superclass methods =>
    refine .cons h.1 (.append ?_ (.methods h.2))
    cases superclass with
    | none => exact .nil
    | some parent => exact .cons trivial .nil

/-- What is directly inside a legal spot is legal. -/
theorem Spot.Legal.children {outer : List Enclosure} {spot : Spot} (h : spot.Legal) :
    legalSpots (spot.children outer) := by
  cases spot with
  | expr e =>
    cases e with
    | «variable» => exact .nil
    | _ => exact @Expr.Legal.spots outer _ h
  | stmt s => exact Stmt.Legal.spots h
  | method f =>
    cases f with
    | mk name parameters body => exact .function h.2.1 h.2.2
  | declared name => exact .nil
  | superclass name parent => exact .cons trivial .nil

/-- Legality goes down to every position. -/
theorem At.legal_of_legalSpots {spots : Spots} {position : Position} {outer : List Enclosure}
    {spot : Spot} (h : At spots position outer spot) (hs : legalSpots spots) : spot.Legal := by
  induction h with
  | here h => exact hs _ (List.mem_of_getElem? h)
  | inside h _ ih => exact ih (Spot.Legal.children (hs _ (List.mem_of_getElem? h)))

/-- Every spot of a legal program is legal. -/
theorem At.legal {p : Program Unit} (hp : legalStmts p) {position : Position}
    {outer : List Enclosure} {spot : Spot} (h : At (topSpots p) position outer spot) :
    spot.Legal := by
  refine h.legal_of_legalSpots ?_
  clear h
  induction p with
  | nil => exact .nil
  | cons s rest ih => exact .cons hp.1 (ih hp.2)

/-! ## Scopes of spots -/

/-- The parameters and statements of the local scope that a block or function opens. -/
def Spot.opens : Spot → Option (List Name × List (Stmt Unit))
  | .expr (.lambda _ parameters body) => some (parameters, body)
  | .stmt (.block body) => some ([], body)
  | .stmt (.functionDecl f) => some (f.parameters, f.body)
  | .method f => some (f.parameters, f.body)
  | _ => none

/-- How many spots are inside a spot before those of the scope that it opens. -/
def Spot.before : Spot → Nat
  | .stmt (.functionDecl _) => 1
  | _ => 0

/-- What opens a scope has its parameters and its body side by side. -/
theorem Spot.children_of_opens {spot : Spot} {parameters : List Name} {body : List (Stmt Unit)}
    (h : spot.opens = some (parameters, body)) (outer : List Enclosure) :
    ∃ first inner, first.length = spot.before ∧ spot.children outer =
      first ++ (parameterSpots inner [] parameters ++
        bodySpots inner (parameters.map Name.text) body) := by
  unfold opens at h
  split at h <;> cases h
  · exact ⟨[], _, rfl, rfl⟩
  · exact ⟨[], _, rfl, rfl⟩
  · exact ⟨[_], _, rfl, rfl⟩
  · exact ⟨[], _, rfl, rfl⟩

/-! ## Spots side by side -/

/-- A spot stands at a position of a program. -/
def Stands (p : Program Unit) (position : Position) (spot : Spot) : Prop :=
  ∃ outer, At (topSpots p) position outer spot

/-- Spots stand side by side, the first one as the given part of what is at the position. -/
def StandFrom (p : Program Unit) (position : Position) : (part : Nat) → List Spot → Prop
  | _, [] => True
  | part, spot :: rest =>
    Stands p (position ++ [part]) spot ∧ StandFrom p position (part + 1) rest

/-- Parts side by side stand from two starts. -/
theorem StandFrom.append {p : Program Unit} {position : Position} {ys : List Spot} :
    ∀ {part : Nat} {xs : List Spot}, StandFrom p position part (xs ++ ys) →
      StandFrom p position part xs ∧ StandFrom p position (part + xs.length) ys
  | _, [], h => ⟨trivial, h⟩
  | part, x :: xs, h => by
    obtain ⟨hxs, hys⟩ := append h.2
    rw [Nat.add_right_comm, Nat.add_assoc] at hys
    exact ⟨⟨h.1, hxs⟩, hys⟩

/-- What stands inside a spot stands side by side. -/
theorem standFrom {p : Program Unit} {position : Position} {spots : Spots}
    (h : ∀ i inner found, spots[i]? = some (inner, found) → Stands p (position ++ [i]) found) :
    ∀ first rest : List Spot, spots.map Prod.snd = first ++ rest →
      StandFrom p position first.length rest
  | _, [], _ => trivial
  | first, found :: rest, hs => by
    have hi : (spots.map Prod.snd)[first.length]? = some found := by
      rw [hs, List.getElem?_append_right (Nat.le_refl _), Nat.sub_self]
      rfl
    rw [List.getElem?_map, Option.map_eq_some_iff] at hi
    obtain ⟨⟨inner, _⟩, hi, hfound⟩ := hi
    have hrest := standFrom h (first ++ [found]) rest (by rw [hs, List.append_assoc]; rfl)
    rw [List.length_append] at hrest
    exact ⟨h _ inner found (hfound ▸ hi), hrest⟩

/-- Each of the parts stands somewhere. -/
theorem StandFrom.exists_stands {p : Program Unit} {position : Position} {spot : Spot} :
    ∀ {part : Nat} {spots : List Spot}, StandFrom p position part spots → spot ∈ spots →
      ∃ found, Stands p found spot
  | _, _ :: _, h, hm => (List.mem_cons.mp hm).elim (fun he => ⟨_, he ▸ h.1⟩) h.2.exists_stands

/-- The outermost statements stand side by side. -/
theorem standFrom_topSpots (p : Program Unit) : StandFrom p [] 0 (p.map .stmt) := by
  refine standFrom (fun i inner found hi => ⟨inner, .here hi⟩) [] _ ?_
  rw [topSpots, List.map_map]
  rfl

namespace Stands

variable {p : Program Unit} {position : Position} {spot : Spot}

/-- What is directly inside a spot stands at the positions below. -/
theorem within (h : Stands p position spot) {spots : List Spot}
    (hs : ∀ outer, (spot.children outer).map Prod.snd = spots) : StandFrom p position 0 spots := by
  obtain ⟨outer, hat⟩ := h
  exact standFrom (fun _ inner _ hi => ⟨inner, hat.child hi⟩) [] spots (hs outer)

theorem legal (h : Stands p position spot) (hp : legalStmts p) : spot.Legal := by
  obtain ⟨outer, hat⟩ := h
  exact hat.legal hp

/-- The parameters and statements of the scope that a spot opens. -/
theorem function {parameters : List Name} {body : List (Stmt Unit)} (h : Stands p position spot)
    (ho : spot.opens = some (parameters, body)) :
    StandFrom p position spot.before (parameters.map .declared) ∧
      StandFrom p position (spot.before + parameters.length) (body.map .stmt) := by
  obtain ⟨outer, hat⟩ := h
  obtain ⟨first, inner, hlength, hc⟩ := Spot.children_of_opens ho outer
  have hs := standFrom (fun _ inner _ hi => ⟨inner, hat.child hi⟩) (first.map Prod.snd)
    (parameters.map .declared ++ body.map .stmt) (by
    rw [hc, List.map_append, List.map_append, map_snd_parameterSpots, map_snd_bodySpots])
  rw [List.length_map, hlength] at hs
  obtain ⟨hparameters, hbody⟩ := hs.append
  rw [List.length_map] at hbody
  exact ⟨hparameters, hbody⟩

end Stands

/-! ## Declarations -/

/-- A declaration has its name as its first part. -/
theorem Stmt.getElem?_spots_of_declared {s : Stmt Unit} {name : Name}
    (h : s.declared = some name) (outer : List Enclosure) :
    (s.spots outer)[0]? = some (outer, .declared name) := by
  cases s with
  | var word initializer =>
    cases h
    cases initializer <;> rfl
  | functionDecl f =>
    cases h
    rfl
  | classDecl word superclass methods =>
    cases h
    rfl
  | _ => cases h

/-- A body declares the names of its declarations. -/
theorem mem_declaredNames {body : List (Stmt Unit)} {s : Stmt Unit} {name : Name} (hs : s ∈ body)
    (h : s.declared = some name) : name.text ∈ declaredNames body :=
  List.mem_map_of_mem (List.mem_filterMap.mpr ⟨s, hs, h⟩)

section

variable {p : Program Unit} (hp : ∀ v : Violation, ¬ v.Occurs p) {scope : Position}
  {outer : List Enclosure} {spot : Spot} {parameters : List Name} {body : List (Stmt Unit)}
  (hat : At (topSpots p) scope outer spot) (ho : spot.opens = some (parameters, body))
include hp hat ho

/-- A statement of a scope declares no name that is declared there before. -/
theorem notMem_of_declared {i : Nat} {s : Stmt Unit} {name : Name} (hs : body[i]? = some s)
    (hd : s.declared = some name) :
    name.text ∉ parameters.map Name.text ++ declaredNames (body.take i) := by
  intro hmem
  obtain ⟨first, inner, -, hc⟩ := Spot.children_of_opens ho outer
  have hstmt : (spot.children outer)[first.length + (parameters.length + i)]? =
      some (.scope (parameters.map Name.text ++ declaredNames (body.take i)) :: inner,
        .stmt s) := by
    rw [hc, List.getElem?_append_right (Nat.le_add_right ..), Nat.add_sub_cancel_left,
      List.getElem?_append_right (by rw [length_parameterSpots]; omega), length_parameterSpots,
      Nat.add_sub_cancel_left, getElem?_bodySpots, hs]
    rfl
  have hdeclared := (hat.child hstmt).child (Stmt.getElem?_spots_of_declared hd _)
  exact hp ⟨_, name, .alreadyDeclared⟩ ⟨_, _, hdeclared, .alreadyDeclared hmem⟩

/-- A function or class of a scope has another name than each parameter and variable. -/
theorem ne_of_declared {s : Stmt Unit} {name : Name} (hs : s ∈ body)
    (hd : s.declared = some name) (hv : ∀ name initializer, s ≠ .var name initializer) {x : String}
    (hx : (∃ name ∈ parameters, name.text = x) ∨
      ∃ name initializer, Stmt.var name initializer ∈ body ∧ name.text = x) : name.text ≠ x := by
  rintro rfl
  obtain ⟨i, hi⟩ := List.mem_iff_getElem?.mp hs
  have hnot := notMem_of_declared hp hat ho hi hd
  rw [List.mem_append, not_or] at hnot
  rcases hx with ⟨parameter, hmem, htext⟩ | ⟨word, initializer, hmem, htext⟩
  · exact hnot.1 (List.mem_map.mpr ⟨parameter, hmem, htext⟩)
  · obtain ⟨j, hj⟩ := List.mem_iff_getElem?.mp hmem
    -- The declaration that comes later finds the name declared already.
    rcases Nat.lt_trichotomy i j with hlt | rfl | hlt
    · refine notMem_of_declared hp hat ho hj rfl (List.mem_append_right _ ?_)
      rw [htext]
      exact mem_declaredNames (List.mem_of_getElem? (List.getElem?_take_of_lt hlt ▸ hi)) hd
    · exact hv _ _ (Option.some.inj (hi.symm.trans hj))
    · refine hnot.2 ?_
      rw [← htext]
      exact mem_declaredNames (List.mem_of_getElem? (List.getElem?_take_of_lt hlt ▸ hj)) rfl

end

end ClassScript
