import ClassScript.Proofs.Loops.Direct
import ClassScript.Proofs.Loops.Scopes
import ClassScript.Proofs.Scope.Lockstep

/-!
# Resolution with and without the scopes of rounds

A tree whose loops are written out and the tree that keeps their increments apart are
resolved to trees of different shape, with the same reports and equally many recorded
references (`Resolution.directly_shadows`).  The round of a loop is the case with content:
its body and its increment declare nothing, and so its extra scope stays empty.
-/

namespace ClassScript

/-! ## Declarations -/

theorem Stmt.declared_expand {β : Type} (s : Stmt β) : s.expand.declared = s.declared := by
  cases s with
  | var name initializer => cases initializer <;> rfl
  | ifStmt condition thenBranch elifs elseBranch => cases elseBranch <;> rfl
  | functionDecl f => cases f; rfl
  | returnStmt line value => cases value <;> rfl
  | _ => rfl

theorem declaredNames_expand {β : Type} (s : Stmt β) :
    declaredNames [s.expand] = declaredNames [s] := by
  simp only [declaredNames, List.filterMap_cons, Stmt.declared_expand]

namespace Resolution

theorem Direct.declared_resolveStmt (context : Context) (s : Stmt Unit) (st : State) :
    (Direct.resolveStmt context false s st).1.declared = s.declared := by
  cases s with
  | var name initializer => cases initializer <;> rfl
  | ifStmt condition thenBranch elifs elseBranch => cases elseBranch <;> rfl
  | functionDecl f => cases f; rfl
  | returnStmt line value => cases value <;> rfl
  | _ => rfl

theorem Direct.isRound_resolveRound (context : Context) {f : Function Unit}
    (h : (Stmt.functionDecl f).isRound = true) (st : State) :
    (Stmt.functionDecl (Direct.resolveRound context f st).1).isRound = true := by
  obtain ⟨name, body, step, hf, hbody⟩ := Stmt.eq_of_isRound h
  cases hf
  have hd := (Direct.declared_resolveStmt context body st).trans hbody
  exact Option.isNone_iff_eq_none.mpr hd

/-- Branches of choices, whatever the last ones are. -/
def ElifsReshaped (marks : List ScopeMark) (branches branches' : List (Elif Binding)) : Prop :=
  ∀ ⦃last last' : Option (Stmt Binding)⦄, ChainReshaped .rounds marks [] last [] last' →
    ChainReshaped .rounds marks branches last branches' last'

namespace Shadows

variable {α : Type} {settled : Bool} {marks : List ScopeMark} {names : List String}
  {Q : α → α → Prop} {x y : Walk α}

/-- The body of a function, in a scope with its parameters. -/
theorem function {parameters : List Name} (hp : ∀ p ∈ parameters, p.Ordinary)
    (h : Shadows true (.shared :: marks) names Q x y) :
    Shadows settled marks [] Q
      (Resolution.inScope ∅ (Resolution.introduceAll parameters >>= fun _ => x))
      (Resolution.inScope ∅ (Resolution.introduceAll parameters >>= fun _ => y)) := by
  refine ((introduceAll .here hp).bind ⟨fun _ => .here, fun hmem => ?_⟩ fun _ _ _ => h).inScope
  obtain ⟨p, hp', hname⟩ := List.mem_map.mp hmem
  exact (hp p hp').2 hname

/-- A branch declares nothing. -/
theorem branch {s : Stmt Unit} (hd : s.expand.declared = none)
    (h : (declaredNames [s] ≠ [] → Shifts marks 0 0) →
      Shadows true marks (declaredNames [s]) Q x y) :
    Shadows true marks [] Q x y := by
  rw [Stmt.declared_expand] at hd
  have hn := declaredNames_of_none hd
  exact hn ▸ h fun hne => absurd hn hne

end Shadows

/-! ## The walks over a tree -/

mutual

theorem resolveExpr_shadows {settled : Bool} {marks : List ScopeMark} (context : Context) :
    ∀ e : Expr Unit, e.expand.Legal →
      Shadows settled marks [] (Expr.Reshaped .rounds marks) (resolveExpr context e.expand)
        (Direct.resolveExpr context e)
  | .literal value, _ => .pure (.literal value)
  | .grouping inner, h => (resolveExpr_shadows context inner h).after fun _ _ => .grouping
  | .unary op line operand, h =>
      (resolveExpr_shadows context operand h).after fun _ _ => .unary op line
  | .binary left op line right, h =>
      (resolveExpr_shadows context left h.1).before fun _ _ hl =>
        (resolveExpr_shadows context right h.2).after fun _ _ => .binary op line hl
  | .logical left op line right, h =>
      (resolveExpr_shadows context left h.1).before fun _ _ hl =>
        (resolveExpr_shadows context right h.2).after fun _ _ => .logical op line hl
  | .variable target, _ => (Shadows.readVariable target.name).after fun _ _ => .variable
  | .assign target value, h =>
      (resolveExpr_shadows context value h.2).before fun _ _ hv =>
        (Shadows.writeVariable target.name).after fun _ _ ht => .assign ht hv
  | .call callee line arguments, h =>
      (resolveExpr_shadows context callee h.1).before fun _ _ hc =>
        (resolveExprs_shadows context arguments h.2).after fun _ _ => .call line hc
  | .get object property, h =>
      (resolveExpr_shadows context object h).after fun _ _ => .get property
  | .set object field value, h =>
      (resolveExpr_shadows context value h.2).before fun _ _ hv =>
        (resolveExpr_shadows context object h.1).after fun _ _ ho => .set field ho hv
  | .this line _, _ => (Shadows.readThis context line).after fun _ _ => .this line
  | .super line method _, _ => (Shadows.readSuper context line).after fun _ _ => .super line method
  | .lambda line parameters body, h =>
      (Shadows.function h.1 (resolveStmts_shadows _ body h.2 fun _ => .here)).after fun _ _ =>
        .lambda line parameters

theorem resolveExprs_shadows {settled : Bool} {marks : List ScopeMark} (context : Context) :
    ∀ es : List (Expr Unit), legalExprs (expandExprs es) →
      Shadows settled marks [] (ExprsReshaped .rounds marks) (resolveExprs context (expandExprs es))
        (Direct.resolveExprs context es)
  | [], _ => .pure .nil
  | e :: rest, h =>
      (resolveExpr_shadows context e h.1).before fun _ _ he =>
        (resolveExprs_shadows context rest h.2).after fun _ _ => .cons he

theorem resolveStmt_shadows {marks : List ScopeMark} (context : Context) :
    ∀ s : Stmt Unit, s.expand.Legal → (declaredNames [s] ≠ [] → Shifts marks 0 0) →
      Shadows true marks (declaredNames [s]) (Stmt.Reshaped .rounds marks)
        (resolveStmt context s.expand) (Direct.resolveStmt context false s)
  | .expression value, h, _ => (resolveExpr_shadows context value h).after fun _ _ => .expression
  | .print value, h, _ => (resolveExpr_shadows context value h).after fun _ _ => .print
  | .var name none, h, hm =>
      (Shadows.introduce (hm (List.cons_ne_nil _ _)) h).after fun _ _ _ =>
        .varNone name (hm (List.cons_ne_nil _ _))
  | .var name (some value), h, hm =>
      .around (hm (List.cons_ne_nil _ _)) h.1 (resolveExpr_shadows context value h.2) fun _ _ =>
        .var name (hm (List.cons_ne_nil _ _))
  | .block body, h, _ =>
      (resolveStmts_shadows context body h fun _ => .here).inScope.after fun _ _ => .block
  | .ifStmt condition thenBranch elifs none, h, _ =>
      (resolveExpr_shadows context condition h.1).before fun _ _ hc =>
        (Shadows.branch h.2.1.2 (resolveStmt_shadows context thenBranch h.2.1.1)).before
          fun _ _ ht => (resolveElifs_shadows context elifs h.2.2.1).after
            fun _ _ he => .ifStmt hc ht (he .none)
  | .ifStmt condition thenBranch elifs (some last), h, _ =>
      (resolveExpr_shadows context condition h.1).before fun _ _ hc =>
        (Shadows.branch h.2.1.2 (resolveStmt_shadows context thenBranch h.2.1.1)).before
          fun _ _ ht => (resolveElifs_shadows context elifs h.2.2.1).before
            fun _ _ he => (Shadows.branch h.2.2.2.2 (resolveStmt_shadows context last
              h.2.2.2.1)).after fun _ _ hl => .ifStmt hc ht (he (.some hl))
  | .whileStmt condition body, h, _ => by
      refine (resolveExpr_shadows context condition h.1).before fun _ _ hc => ?_
      have hwhole : body.isRound = false → Shadows true marks [] (BodyReshaped .rounds marks)
          (resolveStmt context (body.expandAs body.isRound))
          (Direct.resolveStmt context body.isRound body) := fun hr => by
        obtain ⟨-, hbody, hd⟩ := h
        rw [hr] at hbody hd ⊢
        refine (Shadows.branch hd (resolveStmt_shadows context body hbody)).imp
          fun _ s' hs => .whole (fun _ => Stmt.isRound_of_declared ?_) hs
        rw [Direct.declared_resolveStmt, ← body.declared_expand, hd]
      cases body with
      | functionDecl f =>
        cases hr : (Stmt.functionDecl f).isRound with
        | false => exact (hr ▸ hwhole hr).after fun _ _ => .whileStmt hc
        | true =>
          have hbody := h.2.1
          rw [hr] at hbody
          exact (resolveRound_shadows context f hr hbody).after fun _ _ => .whileStmt hc
      | _ => exact (hwhole rfl).after fun _ _ => .whileStmt hc
  | .functionDecl (.mk name parameters body), h, hm => by
      have hshared := hm (List.cons_ne_nil _ _)
      refine (Shadows.introduce hshared h.1).bind
        ⟨fun _ => hshared, fun hmem => h.1.2 (List.mem_singleton.mp hmem).symm⟩ fun _ _ _ => ?_
      exact (resolveFunction_shadows context .function (.mk name parameters body) h).after
        fun _ _ => .functionDecl hshared
  | .returnStmt line none, _, _ =>
      (Shadows.checkReturn context line false).after fun _ _ _ => .returnNone line
  | .returnStmt line (some value), h, _ =>
      (Shadows.checkReturn context line true).before fun _ _ _ =>
        (resolveExpr_shadows context value h).after fun _ _ => .returnStmt line
  | .breakStmt line, _, _ => .pure (.breakStmt line)
  | .classDecl name superclass methods, h, hm => by
      have hshared := hm (List.cons_ne_nil _ _)
      refine (Shadows.introduce hshared h.1).bind
        ⟨fun _ => hshared, fun hmem => h.1.2 (List.mem_singleton.mp hmem).symm⟩ fun _ _ _ => ?_
      refine (Shadows.resolveSuperclass name superclass).before fun parent parent' hp => ?_
      have hsome : parent'.isSome = parent.isSome := by cases hp <;> rfl
      rw [hsome]
      exact (resolveMethods_shadows _ methods h.2).inClass.after
        fun _ _ => .classDecl name hshared hp

theorem resolveStmts_shadows {marks : List ScopeMark} (context : Context) :
    ∀ body : List (Stmt Unit), legalStmts (expandStmts body) →
      (declaredNames body ≠ [] → Shifts marks 0 0) →
      Shadows true marks (declaredNames body) (StmtsReshaped .rounds marks)
        (resolveStmts context (expandStmts body)) (Direct.resolveStmts context body)
  | [], _, _ => .pure .nil
  | s :: rest, h, hm => by
      rw [declaredNames_cons] at hm ⊢
      exact (resolveStmt_shadows context s h.1 fun hs =>
          hm (List.append_ne_nil_of_left_ne_nil hs _)).bind
        ⟨fun hs => hm (List.append_ne_nil_of_left_ne_nil hs _),
          declaredNames_expand s ▸ fun hs => (Stmt.Legal.ordinary h.1 _ hs).2 rfl⟩
        fun _ _ hs => (resolveStmts_shadows context rest h.2
          fun hr => hm (List.append_ne_nil_of_right_ne_nil _ hr)).after fun _ _ => .cons hs

theorem resolveElifs_shadows {marks : List ScopeMark} (context : Context) :
    ∀ branches : List (Elif Unit), legalElifs (expandElifs branches) →
      Shadows true marks [] (ElifsReshaped marks) (resolveElifs context (expandElifs branches))
        (Direct.resolveElifs context branches)
  | [], _ => .pure fun _ _ h => h
  | .mk condition body :: rest, h =>
      (resolveExpr_shadows context condition h.1.1).before fun _ _ hc =>
        (Shadows.branch h.1.2.2 (resolveStmt_shadows context body h.1.2.1)).before fun _ _ hb =>
          (resolveElifs_shadows context rest h.2).after fun _ _ hr _ _ hl =>
            .cons hc hb (hr hl)

theorem resolveRound_shadows {marks : List ScopeMark} (context : Context) :
    ∀ f : Function Unit, (Stmt.functionDecl f).isRound = true → legalStmts f.expand.body →
      Shadows true marks [] (BodyReshaped .rounds marks)
        (resolveStmt context (.block f.expand.body))
        (Direct.resolveRound context f >>= fun f => pure (.functionDecl f))
  | .mk name parameters body, hr, h => by
      have hnone : declaredNames body = [] := by
        obtain ⟨_, _, _, hf, hbody⟩ := Stmt.eq_of_isRound hr
        cases hf
        rw [declaredNames_cons, declaredNames_of_none hbody]
        rfl
      have hb := @resolveStmts_shadows (.extra :: marks) context body h
        fun hne => absurd hnone hne
      rw [hnone] at hb
      intro s s' hs hsettled
      obtain ⟨hq, he⟩ := hb.inRound s s' hs hsettled
      exact ⟨.round rfl (Direct.isRound_resolveRound context hr s') hq, he⟩

theorem resolveFunction_shadows {settled : Bool} {marks : List ScopeMark} (context : Context)
    (kind : FunctionContext) : ∀ f : Function Unit, f.expand.Legal →
      Shadows settled marks [] (Function.Reshaped .rounds marks)
        (resolveFunction context kind f.expand) (Direct.resolveFunction context kind f)
  | .mk name parameters body, h =>
      (Shadows.function h.2.1 (resolveStmts_shadows _ body h.2.2 fun _ => .here)).after fun _ _ =>
        .mk name parameters

theorem resolveMethods_shadows {marks : List ScopeMark} (context : Context) :
    ∀ methods : List (Function Unit), legalFunctions (expandFunctions methods) →
      Shadows true marks [] (FunctionsReshaped .rounds marks)
        (resolveMethods context (expandFunctions methods)) (Direct.resolveMethods context methods)
  | [], _ => .pure .nil
  | .mk name parameters body :: rest, h =>
      (resolveFunction_shadows context (methodContext name) (.mk name parameters body) h.1).before
        fun _ _ hf => (resolveMethods_shadows context rest h.2).after fun _ _ => .cons hf

end

/-- A program whose loops are written out and the one with rounds are resolved alike, but for
their shape. -/
theorem directly_shadows {p : Program Unit} (hp : legalStmts (expandStmts p)) :
    StmtsReshaped .rounds [] (ofProgram (expandStmts p)).program (directly p).program ∧
      (directly p).diagnostics = (ofProgram (expandStmts p)).diagnostics ∧
      (directly p).references.size = (ofProgram (expandStmts p)).references.size := by
  obtain ⟨hq, he⟩ := resolveStmts_shadows ⟨.topLevel, .none⟩ p hp (fun _ => .outermost 0)
    ⟨[], [], #[]⟩ ⟨[], [], #[]⟩ ⟨.nil, rfl, rfl, rfl⟩ fun _ _ => rfl
  exact ⟨hq, he.diagnostics, he.references⟩

end Resolution

end ClassScript
