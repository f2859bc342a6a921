import ClassScript.Proofs.Scope.Walk

/-!
# Sites

A *site* is a place that resolution comes to: a node with its context and the
state of the walk when it gets there.  `Site.resolved` is the node as resolution
leaves it and `Site.after` the state behind it.

The walk goes from a site to its parts (`Site.parts`), which lie in the same
scopes, to the body of a block (`Site.block?`), and to the functions that are
made there (`FunctionSite`): the function without a name, the declared function,
or the methods of the declared class.

For each open scope a site also has the names that the scope declares from its
beginning to its end, those included that the walk has not come to yet.
-/

namespace ClassScript

open Resolution

/-- A node with its bindings. -/
def Node.resolve (context : Context) : Node Unit → Walk (Node Binding)
  | .expr e => return .expr (← resolveExpr context e)
  | .exprs es => return .exprs (← resolveExprs context es)
  | .stmt s => return .stmt (← resolveStmt context s)
  | .stmts body => return .stmts (← resolveStmts context body)
  | .elifs branches none => return .elifs (← resolveElifs context branches) none
  | .elifs branches (some s) => do
    let branches ← resolveElifs context branches
    return .elifs branches (some (← resolveStmt context s))
  | .loop condition body => do
    let condition ← resolveExpr context condition
    return .loop condition (← resolveStmt context body)

theorem Node.resolve_walks (context : Context) :
    ∀ n : Node Unit, n.Legal → Walks n.declared (n.resolve context)
  | .expr e, h => (resolveExpr_walks context e h).after
  | .exprs es, h => (resolveExprs_walks context es h).after
  | .stmt s, h => (resolveStmt_walks context s h).after
  | .stmts body, h => (resolveStmts_walks context body h).after
  | .elifs branches none, h => (resolveElifs_walks context branches h.1).after
  | .elifs branches (some s), h =>
      (resolveElifs_walks context branches h.1).before fun _ =>
        ((resolveStmt_walks context s h.2.1).branch h.2.2).after
  | .loop condition body, h =>
      (resolveExpr_walks context condition h.1).before fun _ =>
        ((resolveStmt_walks context body h.2.1).branch h.2.2).after

/-- A place that resolution comes to. -/
structure Site where
  /-- What encloses the node. -/
  context : Context
  /-- The names that each open scope declares in all, the innermost one first. -/
  names : List (List String)
  /-- The node. -/
  node : Node Unit
  /-- The state of the walk before the node. -/
  state : State

namespace Site

/-- The node with its bindings. -/
def resolved (w : Site) : Node Binding := (w.node.resolve w.context w.state).1

/-- The state of the walk behind the node. -/
def after (w : Site) : State := (w.node.resolve w.context w.state).2

/-- The scopes that are open. -/
abbrev scopes (w : Site) : List StaticScope := w.state.scopes

/-- Another node in the same scopes. -/
def on (w : Site) (node : Node Unit) (state : State) : Site := { w with node, state }

/-! ## Parts -/

/-- The sites of the parts of an expression. -/
def exprParts (w : Site) : Expr Unit → List Site
  | .literal _ => []
  | .grouping inner => [w.on (.expr inner) w.state]
  | .unary _ _ operand => [w.on (.expr operand) w.state]
  | .binary left _ _ right =>
      let first := w.on (.expr left) w.state
      [first, w.on (.expr right) first.after]
  | .logical left _ _ right =>
      let first := w.on (.expr left) w.state
      [first, w.on (.expr right) first.after]
  | .variable _ => []
  | .assign _ value => [w.on (.expr value) w.state]
  | .call callee _ arguments =>
      let first := w.on (.expr callee) w.state
      [first, w.on (.exprs arguments) first.after]
  | .get object _ => [w.on (.expr object) w.state]
  | .set object _ value =>
      let first := w.on (.expr value) w.state
      [w.on (.expr object) first.after, first]
  | .this _ _ => []
  | .super _ _ _ => []
  | .lambda _ _ _ => []

/-- The sites of the parts of a statement. -/
def stmtParts (w : Site) : Stmt Unit → List Site
  | .expression value => [w.on (.expr value) w.state]
  | .print value => [w.on (.expr value) w.state]
  | .var _ none => []
  | .var name (some value) => [w.on (.expr value) (declare name w.state).2]
  | .block _ => []
  | .ifStmt condition thenBranch elifs elseBranch =>
      let first := w.on (.expr condition) w.state
      let second := w.on (.stmt thenBranch) first.after
      [first, second, w.on (.elifs elifs elseBranch) second.after]
  | .whileStmt condition body => [w.on (.loop condition body) w.state]
  | .functionDecl _ => []
  | .returnStmt _ none => []
  | .returnStmt line (some value) =>
      [w.on (.expr value) (checkReturn w.context line true w.state).2]
  | .breakStmt _ => []
  | .classDecl _ _ _ => []

/-- The sites of the parts of a node. -/
def parts (w : Site) : List Site :=
  match w.node with
  | .expr e => w.exprParts e
  | .exprs [] => []
  | .exprs (e :: rest) =>
      let first := w.on (.expr e) w.state
      [first, w.on (.exprs rest) first.after]
  | .stmt s => w.stmtParts s
  | .stmts [] => []
  | .stmts (s :: rest) =>
      let first := w.on (.stmt s) w.state
      [first, w.on (.stmts rest) first.after]
  | .elifs [] none => []
  | .elifs [] (some s) => [w.on (.stmt s) w.state]
  | .elifs (.mk condition body :: rest) elseBranch =>
      let first := w.on (.expr condition) w.state
      let second := w.on (.stmt body) first.after
      [first, second, w.on (.elifs rest elseBranch) second.after]
  | .loop condition body =>
      let first := w.on (.expr condition) w.state
      [first, w.on (.stmt body) first.after, w]

theorem map_node_parts (w : Site) : w.parts.map Site.node = w.node.parts := by
  obtain ⟨context, names, node, state⟩ := w
  cases node with
  | expr e => cases e <;> rfl
  | exprs es => cases es <;> rfl
  | stmt s => fun_cases Stmt.parts s <;> rfl
  | stmts body => cases body <;> rfl
  | elifs branches elseBranch =>
    rcases branches with _ | ⟨⟨condition, body⟩, rest⟩ <;> cases elseBranch <;> rfl
  | loop condition body => rfl

/-- Resolution goes from a node to its parts and puts the results together
again. -/
theorem map_resolved_parts (w : Site) : w.parts.map Site.resolved = w.resolved.parts := by
  obtain ⟨context, names, node, state⟩ := w
  cases node with
  | expr e => cases e <;> rfl
  | exprs es => cases es <;> rfl
  | stmt s =>
    fun_cases Stmt.parts s
    case case6 condition thenBranch elifs elseBranch => cases elseBranch <;> rfl
    all_goals rfl
  | stmts body => cases body <;> rfl
  | elifs branches elseBranch =>
    rcases branches with _ | ⟨⟨condition, body⟩, rest⟩ <;> cases elseBranch <;> rfl
  | loop condition body => rfl

theorem reports (w : Site) (hl : w.node.Legal) :
    w.state.diagnostics <+: w.after.diagnostics :=
  (w.node.resolve_walks w.context hl w.state).reports

/-- What a part shares with the whole. -/
structure PartOf (w w' : Site) : Prop where
  context : w'.context = w.context
  names : w'.names = w.names
  reports : w'.after.diagnostics <+: w.after.diagnostics

/-- How the scopes of a part come from those of the whole.  An initializer has
the declared name in its scope, not ready for use, and a statement has those of
the statements before it.  Other nodes with parts declare nothing. -/
inductive PassesOn (w w' : Site) : Prop where
  | same : w'.scopes = w.scopes → w.node.declared = [] → w'.node.declared = [] → PassesOn w w'
  | first (s : Stmt Unit) (rest : List (Stmt Unit)) : w.node = .stmts (s :: rest) →
      w'.node = .stmt s → w'.scopes = w.scopes → PassesOn w w'
  | initializer (name : Name) (value : Expr Unit) : w.node = .stmt (.var name (some value)) →
      w'.node = .expr value → w'.scopes = enter name.text false w.scopes → PassesOn w w'
  | rest (s : Stmt Unit) (rest : List (Stmt Unit)) : w.node = .stmts (s :: rest) →
      w'.node = .stmts rest → w'.scopes = enterAll (declaredNames [s]) w.scopes → PassesOn w w'

variable {w w' : Site}

theorem exprParts_partOf {e : Expr Unit} (he : w.node = .expr e) (hl : e.Legal)
    (hw : w' ∈ w.exprParts e) :
    PartOf w w' ∧ w'.scopes = w.scopes ∧ w'.node.declared = [] := by
  obtain ⟨context, names, node, state⟩ := w
  obtain rfl : node = .expr e := he
  have hlast : ∀ s : State, s.diagnostics <+: s.diagnostics := fun s => List.prefix_refl _
  have hfirst : ∀ e : Expr Unit, e.Legal → (resolveExpr context e state).2.scopes = state.scopes :=
    fun e h => (resolveExpr_walks context e h state).scopes
  cases e <;> simp only [exprParts, List.mem_cons, List.not_mem_nil, or_false] at hw
  case grouping inner =>
    subst hw
    exact ⟨⟨rfl, rfl, hlast _⟩, rfl, rfl⟩
  case unary op line operand =>
    subst hw
    exact ⟨⟨rfl, rfl, hlast _⟩, rfl, rfl⟩
  case binary left op line right =>
    rcases hw with rfl | rfl
    · exact ⟨⟨rfl, rfl, (resolveExpr_walks context right hl.2 _).reports⟩, rfl, rfl⟩
    · exact ⟨⟨rfl, rfl, hlast _⟩, hfirst left hl.1, rfl⟩
  case logical left op line right =>
    rcases hw with rfl | rfl
    · exact ⟨⟨rfl, rfl, (resolveExpr_walks context right hl.2 _).reports⟩, rfl, rfl⟩
    · exact ⟨⟨rfl, rfl, hlast _⟩, hfirst left hl.1, rfl⟩
  case assign target value =>
    subst hw
    exact ⟨⟨rfl, rfl, (Walks.writeVariable target.name _).reports⟩, rfl, rfl⟩
  case call callee line arguments =>
    rcases hw with rfl | rfl
    · exact ⟨⟨rfl, rfl, (resolveExprs_walks context arguments hl.2 _).reports⟩, rfl, rfl⟩
    · exact ⟨⟨rfl, rfl, hlast _⟩, hfirst callee hl.1, rfl⟩
  case get object property =>
    subst hw
    exact ⟨⟨rfl, rfl, hlast _⟩, rfl, rfl⟩
  case set object field value =>
    rcases hw with rfl | rfl
    · exact ⟨⟨rfl, rfl, hlast _⟩, hfirst value hl.2, rfl⟩
    · exact ⟨⟨rfl, rfl, (resolveExpr_walks context object hl.1 _).reports⟩, rfl, rfl⟩

theorem stmtParts_partOf {s : Stmt Unit} (he : w.node = .stmt s) (hl : s.Legal)
    (hw : w' ∈ w.stmtParts s) : PartOf w w' ∧ PassesOn w w' := by
  obtain ⟨context, names, node, state⟩ := w
  obtain rfl : node = .stmt s := he
  have hlast : ∀ s : State, s.diagnostics <+: s.diagnostics := fun s => List.prefix_refl _
  cases s with
  | expression value =>
    obtain rfl := List.mem_singleton.mp hw
    exact ⟨⟨rfl, rfl, hlast _⟩, .same rfl rfl rfl⟩
  | print value =>
    obtain rfl := List.mem_singleton.mp hw
    exact ⟨⟨rfl, rfl, hlast _⟩, .same rfl rfl rfl⟩
  | var name initializer =>
    cases initializer with
    | none => cases hw
    | some value =>
      obtain rfl := List.mem_singleton.mp hw
      exact ⟨⟨rfl, rfl, hlast _⟩, .initializer name value rfl rfl (Walks.declare_scopes name state)⟩
  | block body => cases hw
  | ifStmt condition thenBranch elifs elseBranch =>
    have hc := resolveExpr_walks context condition hl.1 state
    have ht := (resolveStmt_walks context thenBranch hl.2.1.1).branch hl.2.1.2
      (resolveExpr context condition state).2
    have he := Node.resolve_walks context (.elifs elifs elseBranch) hl.2.2
      (resolveStmt context thenBranch (resolveExpr context condition state).2).2
    have hafter : (Node.resolve context (.stmt (.ifStmt condition thenBranch elifs elseBranch))
        state).2 = (Node.resolve context (.elifs elifs elseBranch)
          (resolveStmt context thenBranch (resolveExpr context condition state).2).2).2 := by
      cases elseBranch <;> rfl
    have hend : (Node.resolve context (.elifs elifs elseBranch)
        (resolveStmt context thenBranch
          (resolveExpr context condition state).2).2).2.diagnostics <+:
        (Node.resolve context (.stmt (.ifStmt condition thenBranch elifs elseBranch))
          state).2.diagnostics := hafter ▸ hlast _
    rw [← hafter] at he
    simp only [stmtParts, List.mem_cons, List.not_mem_nil, or_false] at hw
    rcases hw with rfl | rfl | rfl
    · exact ⟨⟨rfl, rfl, ht.reports.trans he.reports⟩, .same rfl rfl rfl⟩
    · exact ⟨⟨rfl, rfl, he.reports⟩, .same hc.scopes rfl (declaredNames_of_none hl.2.1.2)⟩
    · exact ⟨⟨rfl, rfl, hend⟩, .same (ht.scopes.trans hc.scopes) rfl rfl⟩
  | whileStmt condition body =>
    obtain rfl := List.mem_singleton.mp hw
    exact ⟨⟨rfl, rfl, hlast _⟩, .same rfl rfl rfl⟩
  | functionDecl f => cases hw
  | returnStmt line value =>
    cases value with
    | none => cases hw
    | some value =>
      obtain rfl := List.mem_singleton.mp hw
      exact ⟨⟨rfl, rfl, hlast _⟩, .same (Walks.checkReturn context line true state).scopes rfl rfl⟩
  | breakStmt line => cases hw
  | classDecl name superclass methods => cases hw

/-- What a part has from the whole. -/
theorem partOf_of_mem_parts (hl : w.node.Legal) (hw : w' ∈ w.parts) :
    PartOf w w' ∧ PassesOn w w' := by
  obtain ⟨context, names, node, state⟩ := w
  have hlast : ∀ s : State, s.diagnostics <+: s.diagnostics := fun s => List.prefix_refl _
  cases node with
  | expr e =>
    obtain ⟨hp, hs, hd⟩ := exprParts_partOf rfl hl hw
    exact ⟨hp, .same hs rfl hd⟩
  | exprs es =>
    cases es with
    | nil => cases hw
    | cons e rest =>
      have he := resolveExpr_walks context e hl.1 state
      have hr := resolveExprs_walks context rest hl.2 (resolveExpr context e state).2
      simp only [parts, List.mem_cons, List.not_mem_nil, or_false] at hw
      rcases hw with rfl | rfl
      · exact ⟨⟨rfl, rfl, hr.reports⟩, .same rfl rfl rfl⟩
      · exact ⟨⟨rfl, rfl, hlast _⟩, .same he.scopes rfl rfl⟩
  | stmt s => exact stmtParts_partOf rfl hl hw
  | stmts body =>
    cases body with
    | nil => cases hw
    | cons s rest =>
      have hs := resolveStmt_walks context s hl.1 state
      have hr := resolveStmts_walks context rest hl.2 (resolveStmt context s state).2
      simp only [parts, List.mem_cons, List.not_mem_nil, or_false] at hw
      rcases hw with rfl | rfl
      · exact ⟨⟨rfl, rfl, hr.reports⟩, .first s rest rfl rfl rfl⟩
      · exact ⟨⟨rfl, rfl, hlast _⟩, .rest s rest rfl rfl hs.scopes⟩
  | elifs branches elseBranch =>
    rcases branches with _ | ⟨⟨condition, body⟩, rest⟩
    · cases elseBranch with
      | none => cases hw
      | some s =>
        simp only [parts, List.mem_cons, List.not_mem_nil, or_false] at hw
        subst hw
        exact ⟨⟨rfl, rfl, hlast _⟩, .same rfl rfl (declaredNames_of_none hl.2.2)⟩
    · have hc := resolveExpr_walks context condition hl.1.1.1 state
      have hb := (resolveStmt_walks context body hl.1.1.2.1).branch hl.1.1.2.2
        (resolveExpr context condition state).2
      have he := Node.resolve_walks context (.elifs rest elseBranch) ⟨hl.1.2, hl.2⟩
        (resolveStmt context body (resolveExpr context condition state).2).2
      have hafter : (Node.resolve context (.elifs (.mk condition body :: rest) elseBranch)
          state).2 = (Node.resolve context (.elifs rest elseBranch)
            (resolveStmt context body (resolveExpr context condition state).2).2).2 := by
        cases elseBranch <;> rfl
      have hend : (Node.resolve context (.elifs rest elseBranch)
          (resolveStmt context body (resolveExpr context condition state).2).2).2.diagnostics <+:
            (Node.resolve context (.elifs (.mk condition body :: rest) elseBranch)
              state).2.diagnostics := hafter ▸ hlast _
      rw [← hafter] at he
      simp only [parts, List.mem_cons, List.not_mem_nil, or_false] at hw
      rcases hw with rfl | rfl | rfl
      · exact ⟨⟨rfl, rfl, hb.reports.trans he.reports⟩, .same rfl rfl rfl⟩
      · exact ⟨⟨rfl, rfl, he.reports⟩, .same hc.scopes rfl (declaredNames_of_none hl.1.1.2.2)⟩
      · exact ⟨⟨rfl, rfl, hend⟩, .same (hb.scopes.trans hc.scopes) rfl rfl⟩
  | loop condition body =>
    have hc := resolveExpr_walks context condition hl.1 state
    have hb := (resolveStmt_walks context body hl.2.1).branch hl.2.2
      (resolveExpr context condition state).2
    simp only [parts, List.mem_cons, List.not_mem_nil, or_false] at hw
    rcases hw with rfl | rfl | rfl
    · exact ⟨⟨rfl, rfl, hb.reports⟩, .same rfl rfl rfl⟩
    · exact ⟨⟨rfl, rfl, hlast _⟩, .same hc.scopes rfl (declaredNames_of_none hl.2.2)⟩
    · exact ⟨⟨rfl, rfl, hlast _⟩, .same rfl rfl rfl⟩

end Site

end ClassScript
