import ClassScript.Proofs.Renaming.References
import ClassScript.Proofs.Scope.Violations

/-!
# Resolution under another name

A respelled program is resolved to what the program is resolved to, with the names of one
scope changed (`Respelling.Apt.ofProgram_respell`).  It is accepted just if the program is,
and its references are recorded with the same distances.

The walk carries the position that it has come to.  The position says whether a scope that
opens there is the marked one, and that no name there is the new one.
-/

namespace ClassScript

open Resolution

/-! ## Trees -/

/-- A name that stands in the program is not one that does not occur there. -/
theorem Stands.ne_of_mem {p : Program Unit} {position : Position} {spot : Spot}
    (h : Stands p position spot) {y : String} (hy : ¬ OccursIn p y) {x : String}
    (hx : x ∈ spot.names) : x ≠ y := by
  obtain ⟨outer, hat⟩ := h
  rintro rfl
  exact hy ⟨position, outer, spot, hat, hx⟩

theorem StandFrom.ne_of_mem {p : Program Unit} {position : Position} {y : String}
    (hy : ¬ OccursIn p y) : ∀ {part : Nat} {names : List Name},
      StandFrom p position part (names.map .declared) → ∀ q ∈ names, q.text ≠ y
  | _, [], _ => nofun
  | _, _ :: _, h => List.forall_mem_cons.mpr
      ⟨h.1.ne_of_mem hy (List.mem_singleton_self _), StandFrom.ne_of_mem hy h.2⟩

/-- Whether the statement keeps its name: no function and no class has the old name in the
marked scope. -/
def Respelling.Keeps (c : Respelling) (marked : Bool) (stmt : Stmt Unit) : Prop :=
  marked = true → ∀ name, stmt.declared = some name →
    (∀ name initializer, stmt ≠ .var name initializer) → name.text ≠ c.old

theorem Respelling.Keeps.of_none {c : Respelling} {marked : Bool} {stmt : Stmt Unit}
    (h : stmt.declared = none) : c.Keeps marked stmt := by
  intro _ name hname
  rw [h] at hname
  cases hname

theorem resolveStmt_classDecl (context : Context) (name : Name)
    (superclass : Option (Reference Unit)) (methods : List (Function Unit)) (s : State) :
    resolveStmt context (.classDecl name superclass methods) s =
      let r := resolveSuperclass name superclass (introduce name s).2
      let ms := inClass r.1.isSome (resolveMethods { context with
        enclosingClass := if r.1.isSome then .derived else .plain } methods) r.2
      (.classDecl name r.1 ms.1, ms.2) :=
  rfl

theorem length_resolveElifs (context : Context) (branches : List (Elif Unit)) (s : State) :
    (resolveElifs context branches s).1.length = branches.length := by
  induction branches generalizing s with
  | nil => rfl
  | cons branch rest ih =>
    obtain ⟨condition, body⟩ := branch
    exact congrArg (· + 1) (ih _)

namespace Respelling.Apt

variable {c : Respelling} {p : Program Unit} {hc : c.Apt p} {marks : List Bool}

/-- What is declared in the scope that a spot opens. -/
theorem keeps (hc : c.Apt p) {spot : Spot} {parameters : List Name} {body : List (Stmt Unit)}
    (h : Stands p position spot) (ho : spot.opens = some (parameters, body)) :
    ∀ stmt ∈ body, c.Keeps (decide (position = c.scope)) stmt := by
  intro stmt hstmt hscope
  obtain rfl : position = c.scope := of_decide_eq_true hscope
  obtain ⟨outer, hat⟩ := h
  exact hc.kept outer spot parameters body hat ho stmt hstmt

/-- A class is followed if its methods are.  It keeps its name, so the marks inside are those of
the program. -/
theorem follows_class {s s' : State} {position : Position} (context : Context)
    (hs : hc.Parallel marks s s') {name : Name} (hname : name.text ≠ c.new)
    (hkept : marks.headD false = true → name.text ≠ c.old)
    {superclass : Option (Reference Unit)} (hparent : ∀ r ∈ superclass, r.name.text ≠ c.new)
    {methods : List (Function Unit)}
    (h : ∀ (inner : Context) {t t' : State},
      hc.Parallel (classMarks superclass.isSome marks) t t' →
        hc.Follows (classMarks superclass.isSome marks)
          (FunctionsRenamed (hc.maps (classMarks superclass.isSome marks)))
          (resolveMethods inner methods t)
          (resolveMethods inner (respellMethods c (classMarks superclass.isSome marks) position
            (if superclass.isSome then 2 else 1) (resolveMethods inner methods t).1) t')) :
    hc.Follows marks (Stmt.Renamed (hc.maps marks))
      (resolveStmt context (.classDecl name superclass methods) s)
      (resolveStmt context ((resolveStmt context (.classDecl name superclass methods) s).1.respell
        c marks position) s') := by
  obtain ⟨hi, hmark⟩ := hs.introduceKept hname hkept
  have hr := follows_resolveSuperclass hi hname (fun h => hkept (hmark ▸ h)) hparent
  have hsome := resolveSuperclass_isSome name superclass (introduce name s).2
  rw [resolveStmt_classDecl]
  show hc.Follows marks _ _ (resolveStmt context (.classDecl name (Option.map _ _) _) s')
  rw [resolveStmt_classDecl]
  -- Whether there is a superclass is the same before and after resolution, under both names.
  generalize resolveSuperclass name _ (introduce name s').2 = r' at hr ⊢
  generalize resolveSuperclass name superclass (introduce name s).2 = r at hr hsome ⊢
  obtain ⟨sup, t⟩ := r
  obtain ⟨sup', t'⟩ := r'
  obtain ⟨rfl, ht⟩ := hr
  dsimp only at hsome ht ⊢
  rw [← hsome] at h
  rw [Option.isSome_map]
  generalize { context with enclosingClass := if sup.isSome then .derived else .plain } = inner
  have hm := h inner (ht.openedClass sup.isSome)
  rw [← Site.fst_inClass sup.isSome (resolveMethods inner methods) t] at hm
  obtain ⟨hfst, hsnd⟩ := follows_inClass hm
  rw [maps_classMarks] at hfst
  exact ⟨.classDecl (ofDistance_kept hname hkept) hfst, hsnd⟩

mutual

theorem resolveExpr_follows {marks : List Bool} (context : Context) {position : Position} :
    ∀ e : Expr Unit, Stands p position (.expr e) → ∀ {s s' : State}, hc.Parallel marks s s' →
      hc.Follows marks (Expr.Renamed (hc.maps marks)) (resolveExpr context e s)
        (resolveExpr context ((resolveExpr context e s).1.respell c marks position) s')
  | .literal value, _, _, _, hs => ⟨.literal value, hs⟩
  | .grouping inner, hp, _, _, hs => by
    obtain ⟨hinner, -⟩ : StandFrom p position 0 [.expr inner] := hp.within fun _ => rfl
    have hi := resolveExpr_follows context inner hinner hs
    exact ⟨.grouping hi.1, hi.2⟩
  | .unary op line operand, hp, _, _, hs => by
    obtain ⟨hoperand, -⟩ : StandFrom p position 0 [.expr operand] := hp.within fun _ => rfl
    have ho := resolveExpr_follows context operand hoperand hs
    exact ⟨.unary op line ho.1, ho.2⟩
  | .binary left op line right, hp, _, _, hs => by
    obtain ⟨hleft, hright, -⟩ : StandFrom p position 0 [.expr left, .expr right] :=
      hp.within fun _ => rfl
    have hl := resolveExpr_follows context left hleft hs
    have hr := resolveExpr_follows context right hright hl.2
    exact ⟨.binary op line hl.1 hr.1, hr.2⟩
  | .logical left op line right, hp, _, _, hs => by
    obtain ⟨hleft, hright, -⟩ : StandFrom p position 0 [.expr left, .expr right] :=
      hp.within fun _ => rfl
    have hl := resolveExpr_follows context left hleft hs
    have hr := resolveExpr_follows context right hright hl.2
    exact ⟨.logical op line hl.1 hr.1, hr.2⟩
  | .variable target, hp, s, _, hs => by
    have hnew := hp.ne_of_mem hc.fresh (List.mem_singleton_self target.name.text)
    have hname : ((readVariable target.name s).1.respell c marks).name = target.name.respell c
        ((bindingOf target.name.text s.scopes).marked marks) := by
      rw [readVariable_fst]
      rfl
    obtain ⟨hfst, hsnd⟩ := follows_readVariable hs hnew hname
    have hr := @Expr.Renamed.variable (hc.maps marks) (readVariable target.name s).1
    rw [← hfst] at hr
    exact ⟨hr, hsnd⟩
  | .assign target value, hp, s, _, hs => by
    have hnew := hp.ne_of_mem hc.fresh (List.mem_singleton_self target.name.text)
    obtain ⟨hvalue, -⟩ : StandFrom p position 0 [.expr value] := hp.within fun _ => rfl
    have hv := resolveExpr_follows context value hvalue hs
    let t := (resolveExpr context value s).2
    have hname : ((writeVariable target.name t).1.respell c marks).name = target.name.respell c
        ((bindingOf target.name.text t.scopes).marked marks) := by
      rw [← bind_fst .assign target.name t]
      rfl
    obtain ⟨hfst, hsnd⟩ := follows_bind hv.2 .assign hnew hname
    have hr := Expr.Renamed.assign (writeVariable target.name t).1 hv.1
    rw [← show _ = Reference.rename (hc.maps marks) (writeVariable target.name t).1 from hfst] at hr
    exact ⟨hr, hsnd⟩
  | .call callee line arguments, hp, _, _, hs => by
    obtain ⟨hcallee, hargs⟩ : StandFrom p position 0 (.expr callee :: arguments.map .expr) :=
      hp.within fun _ => by simp [Spot.children, Expr.spots]
    have hf := resolveExpr_follows context callee hcallee hs
    have ha := resolveExprs_follows context arguments hargs hf.2
    exact ⟨.call line hf.1 ha.1, ha.2⟩
  | .get object property, hp, _, _, hs => by
    obtain ⟨hobject, -⟩ : StandFrom p position 0 [.expr object] := hp.within fun _ => rfl
    have ho := resolveExpr_follows context object hobject hs
    exact ⟨.get property ho.1, ho.2⟩
  | .set object field value, hp, _, _, hs => by
    obtain ⟨hvalue, hobject, -⟩ : StandFrom p position 0 [.expr value, .expr object] :=
      hp.within fun _ => rfl
    have hv := resolveExpr_follows context value hvalue hs
    have ho := resolveExpr_follows context object hobject hv.2
    exact ⟨.set field ho.1 hv.1, ho.2⟩
  | .this line _, _, s, s', hs => by
    obtain ⟨hfst, hsnd⟩ := follows_readThis hs context line
    have hr : Expr.Renamed (hc.maps marks) (.this line (readThis context line s).1)
        (.this line (readThis context line s').1) := hfst ▸ .this line _
    exact ⟨hr, hsnd⟩
  | .super line method _, _, s, s', hs => by
    obtain ⟨hfst, hsnd⟩ := follows_readSuper hs context line
    have hr : Expr.Renamed (hc.maps marks) (.super line method (readSuper context line s).1)
        (.super line method (readSuper context line s').1) := hfst ▸ .super line method _
    exact ⟨hr, hsnd⟩
  | .lambda line parameters body, hp, s, s', hs => by
    obtain ⟨hdeclared, hbody⟩ := hp.function rfl
    rw [show Spot.before _ = 0 from rfl, Nat.zero_add] at hbody
    have hnames := StandFrom.ne_of_mem hc.fresh hdeclared
    have ht := hs.openedFunction (decide (position = c.scope)) hnames
    have hb := resolveStmts_follows { context with function := .function } body hbody ht
      (hc.keeps hp rfl)
    have hr := Expr.Renamed.lambda line parameters (hc.nameMap (decide (position = c.scope))) hb.1
    rw [← hc.map_respell hnames] at hr
    exact ⟨hr, hb.2.closed⟩

theorem resolveExprs_follows {marks : List Bool} (context : Context) {position : Position} :
    ∀ es : List (Expr Unit), ∀ {part : Nat}, StandFrom p position part (es.map .expr) →
      ∀ {s s' : State}, hc.Parallel marks s s' →
        hc.Follows marks (ExprsRenamed (hc.maps marks)) (resolveExprs context es s)
          (resolveExprs context
            (respellExprs c marks position part (resolveExprs context es s).1) s')
  | [], _, _, _, _, hs => ⟨.nil, hs⟩
  | e :: rest, _, hp, _, _, hs => by
    have he := resolveExpr_follows context e hp.1 hs
    have hrest := resolveExprs_follows context rest hp.2 he.2
    exact ⟨.cons he.1 hrest.1, hrest.2⟩

theorem resolveStmt_follows {marks : List Bool} (context : Context) {position : Position} :
    ∀ stmt : Stmt Unit, Stands p position (.stmt stmt) → c.Keeps (marks.headD false) stmt →
      ∀ {s s' : State}, hc.Parallel marks s s' →
        hc.Follows marks (Stmt.Renamed (hc.maps marks)) (resolveStmt context stmt s)
          (resolveStmt context ((resolveStmt context stmt s).1.respell c marks position) s')
  | .expression value, hp, _, _, _, hs => by
    obtain ⟨hvalue, -⟩ : StandFrom p position 0 [.expr value] := hp.within fun _ => rfl
    have hv := resolveExpr_follows context value hvalue hs
    exact ⟨.expression hv.1, hv.2⟩
  | .print value, hp, _, _, _, hs => by
    obtain ⟨hvalue, -⟩ : StandFrom p position 0 [.expr value] := hp.within fun _ => rfl
    have hv := resolveExpr_follows context value hvalue hs
    exact ⟨.print hv.1, hv.2⟩
  | .var name none, hp, _, _, _, hs => by
    obtain ⟨hname, -⟩ : StandFrom p position 0 [.declared name] := hp.within fun _ => rfl
    have hnew := hname.ne_of_mem hc.fresh (List.mem_singleton_self _)
    have hr := @Stmt.Renamed.varNone (hc.maps marks) name
    rw [ofDistance_zero, ← hc.respell_eq_rename hnew] at hr
    have ht := hs.introduce hnew
    rw [← hc.respell_eq_rename hnew] at ht
    exact ⟨hr, ht⟩
  | .var name (some value), hp, _, _, _, hs => by
    obtain ⟨hname, hvalue, -⟩ : StandFrom p position 0 [.declared name, .expr value] :=
      hp.within fun _ => rfl
    have hnew := hname.ne_of_mem hc.fresh (List.mem_singleton_self _)
    have hd := hs.declare hnew
    rw [← hc.respell_eq_rename hnew] at hd
    have hv := resolveExpr_follows context value hvalue hd
    have hr := Stmt.Renamed.var name hv.1
    rw [ofDistance_zero, ← hc.respell_eq_rename hnew] at hr
    have ht := hv.2.define hnew
    rw [← hc.respell_eq_rename hnew] at ht
    exact ⟨hr, ht⟩
  | .block body, hp, _, _, _, hs => by
    have hb := resolveStmts_follows context body (hp.function rfl).2
      (hs.opened (decide (position = c.scope))) (hc.keeps hp rfl)
    exact ⟨.block _ hb.1, hb.2.closed⟩
  | .ifStmt condition thenBranch elifs none, hp, _, s, s', hs => by
    obtain ⟨hcondition, hthen, helifs⟩ : StandFrom p position 0
        (.expr condition :: .stmt thenBranch :: elifsWithin elifs) :=
      hp.within fun _ => by simp [Spot.children, Stmt.spots, map_snd_elifSpots]
    have hl := hp.legal hc.legal
    have hcond := resolveExpr_follows context condition hcondition hs
    have ht := resolveStmt_follows context thenBranch hthen (.of_none hl.2.1.2) hcond.2
    have he := resolveElifs_follows context elifs helifs hl.2.2.1 ht.2
    exact ⟨.ifStmt hcond.1 ht.1 he.1 .none, he.2⟩
  | .ifStmt condition thenBranch elifs (some stmt), hp, _, s, s', hs => by
    obtain ⟨hcondition, hthen, hrest⟩ : StandFrom p position 0
        (.expr condition :: .stmt thenBranch :: (elifsWithin elifs ++ [.stmt stmt])) :=
      hp.within fun _ => by simp [Spot.children, Stmt.spots, map_snd_elifSpots]
    obtain ⟨helifs, helse, -⟩ := hrest.append
    have hl := hp.legal hc.legal
    have hcond := resolveExpr_follows context condition hcondition hs
    have ht := resolveStmt_follows context thenBranch hthen (.of_none hl.2.1.2) hcond.2
    have he := resolveElifs_follows context elifs helifs hl.2.2.1 ht.2
    rw [length_elifsWithin, ← length_resolveElifs context elifs
      (resolveStmt context thenBranch (resolveExpr context condition s).2).2] at helse
    have hlast := resolveStmt_follows context stmt helse (.of_none hl.2.2.2.2) he.2
    exact ⟨.ifStmt hcond.1 ht.1 he.1 (.some hlast.1), hlast.2⟩
  | .whileStmt condition body, hp, _, _, _, hs => by
    obtain ⟨hcondition, hbody, -⟩ : StandFrom p position 0 [.expr condition, .stmt body] :=
      hp.within fun _ => rfl
    have hcond := resolveExpr_follows context condition hcondition hs
    have hb := resolveStmt_follows context body hbody (.of_none (hp.legal hc.legal).2.2) hcond.2
    exact ⟨.whileStmt hcond.1 hb.1, hb.2⟩
  | .functionDecl (.mk name parameters body), hp, hkept, _, _, hs => by
    obtain ⟨hname, -⟩ : StandFrom p position 0 (.declared name :: (parameters.map .declared ++
        body.map .stmt)) := hp.within fun outer => by
      simp [Spot.children, Stmt.spots, functionSpots, map_snd_parameterSpots, map_snd_bodySpots,
        Function.name, Function.parameters, Function.body]
    have hnew := hname.ne_of_mem hc.fresh (List.mem_singleton_self _)
    have hold := fun h => hkept h name rfl nofun
    have ht := hs.introduceKept hnew hold
    have hf := resolveFunction_follows context .function hp (.mk name parameters body) rfl ht.1
    exact ⟨.functionDecl (ofDistance_kept hnew hold) hf.1, hf.2⟩
  | .returnStmt line none, _, _, _, _, hs => ⟨.returnNone line, hs.checkReturn context line false⟩
  | .returnStmt line (some value), hp, _, _, _, hs => by
    obtain ⟨hvalue, -⟩ : StandFrom p position 0 [.expr value] := hp.within fun _ => rfl
    have hv := resolveExpr_follows context value hvalue (hs.checkReturn context line true)
    exact ⟨.returnStmt line hv.1, hv.2⟩
  | .breakStmt line, _, _, _, _, hs => ⟨.breakStmt line, hs⟩
  | .classDecl name superclass methods, hp, hkept, s, s', hs => by
    obtain ⟨hname, hrest⟩ : StandFrom p position 0 (.declared name ::
        ((superclass.map fun r => Spot.superclass name r.name).toList ++ methods.map .method)) :=
      hp.within fun _ => by cases superclass <;> simp [Spot.children, Stmt.spots]
    obtain ⟨hparent, hmethods⟩ := hrest.append
    have hnew := hname.ne_of_mem hc.fresh (List.mem_singleton_self _)
    have hold := fun h => hkept h name rfl nofun
    have hpart : 0 + 1 + (superclass.map fun r => Spot.superclass name r.name).toList.length =
        if superclass.isSome then 2 else 1 := by
      cases superclass <;> rfl
    rw [hpart] at hmethods
    refine follows_class context hs hnew hold (fun r hr => ?_) fun inner _ _ ht =>
      resolveMethods_follows inner methods hmethods ht
    obtain rfl : superclass = some r := hr
    exact hparent.1.ne_of_mem hc.fresh (List.mem_singleton_self _)

theorem resolveStmts_follows {marks : List Bool} (context : Context) {position : Position} :
    ∀ body : List (Stmt Unit), ∀ {part : Nat}, StandFrom p position part (body.map .stmt) →
      ∀ {s s' : State}, hc.Parallel marks s s' →
        (∀ stmt ∈ body, c.Keeps (marks.headD false) stmt) →
        hc.Follows marks (StmtsRenamed (hc.maps marks)) (resolveStmts context body s)
          (resolveStmts context
            (respellStmts c marks position part (resolveStmts context body s).1) s')
  | [], _, _, _, _, hs, _ => ⟨.nil, hs⟩
  | stmt :: rest, _, hp, _, _, hs, hkept => by
    obtain ⟨hfirst, hkept⟩ := List.forall_mem_cons.mp hkept
    have he := resolveStmt_follows context stmt hp.1 hfirst hs
    have hrest := resolveStmts_follows context rest hp.2 he.2 hkept
    exact ⟨.cons he.1 hrest.1, hrest.2⟩

theorem resolveElifs_follows {marks : List Bool} (context : Context) {position : Position} :
    ∀ branches : List (Elif Unit), ∀ {part : Nat},
      StandFrom p position part (elifsWithin branches) → legalElifs branches →
      ∀ {s s' : State}, hc.Parallel marks s s' →
        hc.Follows marks (ElifsRenamed (hc.maps marks)) (resolveElifs context branches s)
          (resolveElifs context
            (respellElifs c marks position part (resolveElifs context branches s).1) s')
  | [], _, _, _, _, _, hs => ⟨.nil, hs⟩
  | .mk condition body :: rest, _, hp, hl, _, _, hs => by
    have hcond := resolveExpr_follows context condition hp.1 hs
    have hb := resolveStmt_follows context body hp.2.1 (.of_none hl.1.2.2) hcond.2
    have hrest := resolveElifs_follows context rest hp.2.2 hl.2 hb.2
    exact ⟨.cons hcond.1 hb.1 hrest.1, hrest.2⟩

theorem resolveFunction_follows {marks : List Bool} (context : Context) (kind : FunctionContext)
    {position : Position} {spot : Spot} (hp : Stands p position spot) :
    ∀ f : Function Unit, spot.opens = some (f.parameters, f.body) →
      ∀ {s s' : State}, hc.Parallel marks s s' →
        hc.Follows marks (Function.Renamed (hc.maps marks)) (resolveFunction context kind f s)
          (resolveFunction context kind
            ((resolveFunction context kind f s).1.respell c marks position spot.before) s')
  | .mk name parameters body, ho, _, _, hs => by
    have ho : spot.opens = some (parameters, body) := ho
    obtain ⟨hdeclared, hbody⟩ := hp.function ho
    have hnames := StandFrom.ne_of_mem hc.fresh hdeclared
    have ht := hs.openedFunction (decide (position = c.scope)) hnames
    have hb := resolveStmts_follows { context with function := kind } body hbody ht
      (hc.keeps hp ho)
    have hr := Function.Renamed.mk name parameters (hc.nameMap (decide (position = c.scope))) hb.1
    rw [← hc.map_respell hnames] at hr
    exact ⟨hr, hb.2.closed⟩

theorem resolveMethods_follows {marks : List Bool} (context : Context) {position : Position} :
    ∀ methods : List (Function Unit), ∀ {part : Nat},
      StandFrom p position part (methods.map .method) →
      ∀ {s s' : State}, hc.Parallel marks s s' →
        hc.Follows marks (FunctionsRenamed (hc.maps marks)) (resolveMethods context methods s)
          (resolveMethods context
            (respellMethods c marks position part (resolveMethods context methods s).1) s')
  | [], _, _, _, _, hs => ⟨.nil, hs⟩
  | .mk name parameters body :: rest, _, hp, _, _, hs => by
    have hf := resolveFunction_follows context (methodContext name) hp.1
      (.mk name parameters body) rfl hs
    have hrest := resolveMethods_follows context rest hp.2 hf.2
    exact ⟨.cons hf.1 hrest.1, hrest.2⟩

end

/-- The respelled program is resolved to the same trees, but for the name.  It is accepted just
if the program is, and its references are recorded in the same order with the same
distances. -/
theorem ofProgram_respell (hc : c.Apt p) :
    StmtsRenamed [] (ofProgram p).program (ofProgram (p.respell c)).program ∧
      ((ofProgram (p.respell c)).diagnostics = [] ↔ (ofProgram p).diagnostics = []) ∧
      (ofProgram (p.respell c)).references.map LocalReference.place =
        (ofProgram p).references.map LocalReference.place := by
  have hs : hc.Parallel [] ⟨[], [], #[]⟩ ⟨[], [], #[]⟩ := ⟨.nil, Iff.rfl, rfl⟩
  have hr := resolveStmts_follows ⟨.topLevel, .none⟩ p (standFrom_topSpots p) hs nofun
  exact ⟨hr.1, hr.2.accepted, hr.2.references⟩

end Respelling.Apt

/-! ## Accepted programs -/

theorem Violation.not_occurs {p : Program Unit} (hp : legalStmts p)
    (ha : (ofProgram p).diagnostics = []) (v : Violation) : ¬ v.Occurs p := by
  obtain ⟨vs, hvs, hds⟩ := ofProgram_accountedFor hp
  rw [ha] at hds
  obtain rfl : vs = [] := List.map_eq_nil_iff.mp hds.symm
  exact fun h => List.not_mem_nil ((hvs.mem_iff v).mpr h)

/-- Variables of a legal program have ordinary names. -/
theorem DeclaresVariable.ordinary {p : Program Unit} (hp : legalStmts p) {scope : Position}
    {x : String} (h : DeclaresVariable p scope x) : x ≠ "this" ∧ x ≠ "super" := by
  obtain ⟨outer, spot, parameters, body, hat, ho, hx⟩ := h
  obtain ⟨hparameters, hbody⟩ := Stands.function ⟨outer, hat⟩ ho
  rcases hx with ⟨name, hmem, rfl⟩ | ⟨name, initializer, hmem, rfl⟩
  · obtain ⟨_, hs⟩ := hparameters.exists_stands (List.mem_map_of_mem hmem)
    exact hs.legal hp
  · obtain ⟨_, hs⟩ := hbody.exists_stands (List.mem_map_of_mem hmem)
    have hl : (Stmt.var name initializer).Legal := hs.legal hp
    cases initializer with
    | none => exact hl
    | some value => exact hl.1

/-- In an accepted program each variable of a local scope may be given each name that does not
occur there. -/
theorem Respelling.Apt.of_accepted {c : Respelling} {p : Program Unit} (hp : legalStmts p)
    (ha : (ofProgram p).diagnostics = []) (hd : DeclaresVariable p c.scope c.old)
    (hnew : c.new ≠ "this" ∧ c.new ≠ "super") (hfresh : ¬ OccursIn p c.new) : c.Apt p where
  legal := hp
  old := hd.ordinary hp
  new := hnew
  fresh := hfresh
  kept outer spot parameters body hat ho stmt hstmt name hname hv := by
    obtain ⟨outer', spot', parameters', body', hat', ho', hx⟩ := hd
    obtain ⟨rfl, rfl⟩ := hat.unique hat'
    obtain ⟨rfl, rfl⟩ := Prod.mk.inj (Option.some.inj (ho.symm.trans ho'))
    exact ne_of_declared (Violation.not_occurs hp ha) hat ho hstmt hname hv hx

end ClassScript
