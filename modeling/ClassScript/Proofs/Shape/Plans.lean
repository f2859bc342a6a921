import ClassScript.Proofs.Evaluation.Correspondence
import ClassScript.Proofs.Heap.Reach
import ClassScript.Proofs.Shape.Steps

/-!
# Plans of programs of different shape

One level of the evaluation of related codes takes related steps and comes to related
codes (`Code.Reshaped.corresponds`).  Two things are left to those who use this: the
evaluation of a round, for which only the first run makes an environment, and that of a
further branch which is a choice of its own in the second tree.
-/

namespace ClassScript

open Run

/-- A value without functions and objects in it. -/
theorem Value.Plain.reshaped {a : Value} (h : a.Plain) (k : Reshaping) (w : Pairing) :
    Value.Reshaped k w a a := by
  cases a with
  | nil => exact .nil
  | boolean value => exact .boolean value
  | number value => exact .number value
  | string value => exact .string value
  | native id function => exact .native id function
  | function id code => cases h
  | classRef c => cases h
  | object id c => cases h

/-! ## Codes -/

/-- Codes of different shape, with what relates their results, and whether they are a round
of a loop, which has a scope of its own in the first tree only. -/
inductive Code.Reshaped (k : Reshaping) (w : Pairing) : (isRound : Bool) → (code code' : Code) →
    (Pairing → code.Result → code'.Result → Prop) → Prop where
  | expr {env env' : EnvId} {marks : List ScopeMark} {e e' : Expr Binding} :
      w.Along env marks env' → Expr.Reshaped k marks e e' →
      Reshaped k w false (.node env (.expr e)) (.node env' (.expr e')) (Value.Reshaped k)
  | exprs {env env' : EnvId} {marks : List ScopeMark} {es es' : List (Expr Binding)} :
      w.Along env marks env' → ExprsReshaped k marks es es' →
      Reshaped k w false (.node env (.exprs es)) (.node env' (.exprs es'))
        (fun w' => List.Forall₂ (Value.Reshaped k w'))
  | stmt {env env' : EnvId} {marks : List ScopeMark} {s s' : Stmt Binding} :
      w.Along env marks env' → Stmt.Reshaped k marks s s' →
      Reshaped k w false (.node env (.stmt s)) (.node env' (.stmt s')) (Completion.Reshaped k)
  | stmts {env env' : EnvId} {marks : List ScopeMark} {body body' : List (Stmt Binding)} :
      w.Along env marks env' → StmtsReshaped k marks body body' →
      Reshaped k w false (.node env (.stmts body)) (.node env' (.stmts body'))
        (Completion.Reshaped k)
  | elifs {env env' : EnvId} {marks : List ScopeMark} {branches branches' : List (Elif Binding)}
      {last last' : Option (Stmt Binding)} : w.Along env marks env' →
      ChainReshaped k marks branches last branches' last' →
      Reshaped k w false (.node env (.elifs branches last)) (.node env' (.elifs branches' last'))
        (Completion.Reshaped k)
  | loop {env env' : EnvId} {marks : List ScopeMark} {condition condition' : Expr Binding}
      {body body' : Stmt Binding} : w.Along env marks env' →
      Expr.Reshaped k marks condition condition' → BodyReshaped k marks body body' →
      Reshaped k w false (.node env (.loop condition body)) (.node env' (.loop condition' body'))
        (Completion.Reshaped k)
  | round {env env' : EnvId} {marks : List ScopeMark} {body : List (Stmt Binding)}
      {f' : Function Binding} : w.Along env marks env' →
      StmtsReshaped k (.extra :: marks) body f'.body →
      Reshaped k w true (.node env (.stmt (.block body))) (.node env' (.stmt (.functionDecl f')))
        (Completion.Reshaped k)
  | invoke {callee callee' : Value} {values values' : List Value} :
      Value.Reshaped k w callee callee' → List.Forall₂ (Value.Reshaped k w) values values' →
      Reshaped k w false (.invoke callee values) (.invoke callee' values') (Value.Reshaped k)
  | closure {code code' : Closure} {values values' : List Value} :
      Closure.Reshaped k w [] code code' → List.Forall₂ (Value.Reshaped k w) values values' →
      Reshaped k w false (.closure code values) (.closure code' values') (Value.Reshaped k)

/-- The codes that the evaluation of the given one calls, in correspondence with those of
the first program. -/
def Code.calls (k : Reshaping) (code' : Code) : CallRelation Pairing :=
  fun w child child' P =>
    Code.Reshaped k w (code'.roundOf child' && k = .rounds) child child' P

/-- The further branches of a choice are a choice of their own in the second tree. -/
def Code.Nests : Code → Code → Prop
  | .node _ (.elifs (_ :: _) _), .node _ (.elifs [] _) => True
  | _, _ => False

namespace Plan.Corresponds

variable {k : Reshaping} {R : CallRelation Pairing} {w : Pairing} {env env' : EnvId}
  {marks : List ScopeMark} {settings : Settings} {depth : Nat}

section

variable (hR : ∀ {w : Pairing} {c c' : Code} {P : Pairing → c.Result → c'.Result → Prop},
  Code.Reshaped k w false c c' P → R w c c' P) (ha : w.Along env marks env')
include hR

section

include ha

theorem expr (i : Nat) {e e' : Expr Binding} (he : Expr.Reshaped k marks e e') :
    Plan.Corresponds (reshaped k) R (Value.Reshaped k) w (Plan.expr i depth env e)
      (Plan.expr i depth env' e') :=
  .visit i depth (hR (.expr ha he))

theorem exprs (i : Nat) {es es' : List (Expr Binding)} (he : ExprsReshaped k marks es es') :
    Plan.Corresponds (reshaped k) R (fun w' => List.Forall₂ (Value.Reshaped k w')) w
      (Plan.exprs i depth env es) (Plan.exprs i depth env' es') :=
  .visit i depth (hR (.exprs ha he))

theorem stmt (i : Nat) {s s' : Stmt Binding} (hs : Stmt.Reshaped k marks s s') :
    Plan.Corresponds (reshaped k) R (Completion.Reshaped k) w (Plan.stmt i depth env s)
      (Plan.stmt i depth env' s') :=
  .visit i depth (hR (.stmt ha hs))

theorem stmts (i : Nat) {body body' : List (Stmt Binding)} (hs : StmtsReshaped k marks body body') :
    Plan.Corresponds (reshaped k) R (Completion.Reshaped k) w (Plan.stmts i depth env body)
      (Plan.stmts i depth env' body') :=
  .visit i depth (hR (.stmts ha hs))

theorem elifs (i : Nat) {branches branches' : List (Elif Binding)}
    {last last' : Option (Stmt Binding)}
    (hc : ChainReshaped k marks branches last branches' last') :
    Plan.Corresponds (reshaped k) R (Completion.Reshaped k) w
      (Plan.elifs i depth env branches last) (Plan.elifs i depth env' branches' last') :=
  .visit i depth (hR (.elifs ha hc))

theorem loop (i : Nat) {condition condition' : Expr Binding} {body body' : Stmt Binding}
    (he : Expr.Reshaped k marks condition condition') (hbody : BodyReshaped k marks body body') :
    Plan.Corresponds (reshaped k) R (Completion.Reshaped k) w
      (Plan.loop i depth env condition body) (Plan.loop i depth env' condition' body') :=
  .visit i depth (hR (.loop ha he hbody))

end

theorem closure (i : Nat) {code code' : Closure} {values values' : List Value}
    (hc : Closure.Reshaped k w [] code code')
    (hv : List.Forall₂ (Value.Reshaped k w) values values') :
    Plan.Corresponds (reshaped k) R (Value.Reshaped k) w (Plan.closure i depth code values)
      (Plan.closure i depth code' values') :=
  .visit i depth (hR (.closure hc hv))

end

theorem note (settings : Settings) (level : Nat) {line line' : String} (h : line' = line) :
    Plan.Corresponds (reshaped k) R Run.Ends w (Plan.note settings level line)
      (Plan.note settings level line') :=
  .lift (Reshapes.note settings level h)

theorem noteCondition (statement : String) {a a' : Value} (h : Value.Reshaped k w a a') :
    Plan.Corresponds (reshaped k) R Run.Ends w
      (Plan.note settings 3 (conditionNote statement a))
      (Plan.note settings 3 (conditionNote statement a')) :=
  note settings 3 (by rw [conditionNote, conditionNote, h.text, h.isTruthy])

end Plan.Corresponds

/-! ## One level of an evaluation -/

section

variable {k : Reshaping} {R : CallRelation Pairing} {w : Pairing} {env env' : EnvId}
  {marks : List ScopeMark} {settings : Settings} (depth : Nat)
  (hR : ∀ {w : Pairing} {c c' : Code} {P : Pairing → c.Result → c'.Result → Prop},
    Code.Reshaped k w false c c' P → R w c c' P)
include hR

open Plan.Corresponds

theorem Expr.Reshaped.corresponds (hb : settings.lookup = .bound) (ha : w.Along env marks env')
    {e e' : Expr Binding} (he : Expr.Reshaped k marks e e') :
    Plan.Corresponds (reshaped k) R (Value.Reshaped k) w (e.plan settings depth env)
      (e'.plan settings depth env') := by
  cases he with
  | literal value => exact .pure ((Value.plain_ofLiteral value).reshaped k w)
  | grouping he => exact expr hR ha 0 he
  | unary op line he =>
    exact (expr hR ha 0 he).bind fun w' a a' _ hv =>
      .lift (Reshapes.orFail line (hv.unary op) fun b hr =>
        (UnaryOp.plain_of_apply hr).reshaped k w')
  | binary op line he he' =>
    exact (expr hR ha 0 he).bind fun w₁ a a' hw₁ hv =>
      (expr hR (ha.mono hw₁) 1 he').bind fun w₂ b b' hw₂ hv' =>
        .lift (Reshapes.orFail line ((hv.mono hw₂).binary op hv') fun c hr =>
          (BinaryOp.plain_of_apply hr).reshaped k w₂)
  | logical op line he he' =>
    refine (expr hR ha 0 he).bind fun w' a a' hw hv => ?_
    rw [hv.decides]
    exact .ite (.pure hv) (expr hR (ha.mono hw) 1 he')
  | «variable» ht => exact .lift (Reshapes.read hb ha ht)
  | assign ht he =>
    exact (expr hR ha 0 he).bind fun w₁ a a' hw₁ hv =>
      (lift (Reshapes.write hb (ha.mono hw₁) ht hv)).bind fun w₂ _ _ hw₂ _ => .pure (hv.mono hw₂)
  | call line he hes =>
    refine (expr hR ha 0 he).bind fun w₁ a a' hw₁ hv =>
      (exprs hR (ha.mono hw₁) 1 hes).bind fun w₂ values values' hw₂ hvs => ?_
    rw [← hvs.length_eq]
    exact (lift (Reshapes.checkCall settings depth (hv.mono hw₂) values.length line)).bind
      fun w₃ _ _ hw₃ _ => .visit 2 (depth + 1) (hR (.invoke ((hv.mono hw₂).mono hw₃)
        (hvs.imp fun _ _ => Value.Reshaped.mono hw₃)))
  | get property he =>
    refine (expr hR ha 0 he).bind fun w' a a' _ hv => ?_
    cases hv with
    | object id hc => exact .lift (Reshapes.getProperty id hc property)
    | _ => exact .lift (Reshapes.fail _ _)
  | set field he he' =>
    refine (expr hR ha 0 he).bind fun w₁ a a' hw₁ hv => ?_
    cases hv with
    | object id hc =>
      exact (expr hR (ha.mono hw₁) 1 he').bind fun w₂ b b' _ hv' =>
        (lift (Reshapes.setField id field.text hv')).bind fun w₃ _ _ hw₃ _ => .pure (hv'.mono hw₃)
    | _ => exact .lift (Reshapes.fail _ _)
  | this line hs => exact .lift (Reshapes.readBinding hb ha ⟨"this", line⟩ hs)
  | super line method hs => exact .lift (Reshapes.getSuper ha hs method)
  | lambda line parameters hbody => exact .lift (Reshapes.newFunction (.mk ha nofun hbody))

theorem Stmt.Reshaped.corresponds (hb : settings.lookup = .bound) (ha : w.Along env marks env')
    {s s' : Stmt Binding} (hs : Stmt.Reshaped k marks s s') :
    Plan.Corresponds (reshaped k) R (Completion.Reshaped k) w (s.plan settings depth env)
      (s'.plan settings depth env') := by
  cases hs with
  | expression he => exact (expr hR ha 0 he).bind fun _ _ _ _ _ => .pure .normal
  | print he =>
    refine (expr hR ha 0 he).bind fun w' a a' _ hv => ?_
    rw [hv.text]
    exact (lift (Reshapes.emit _)).bind fun _ _ _ _ _ => .pure .normal
  | varNone name hm =>
    exact (lift (Reshapes.declareVariable ha hm name .nil)).bind fun _ _ _ _ _ => .pure .normal
  | var name hm he =>
    exact (expr hR ha 0 he).bind fun w' a a' hw hv =>
      (lift (Reshapes.declareVariable (ha.mono hw) hm name hv)).bind fun _ _ _ _ _ => .pure .normal
  | block hbody =>
    exact (lift (Reshapes.newEnv ha .empty)).bind fun w' inner inner' _ ha' =>
      stmts hR ha' 0 hbody
  | ifStmt he hthen hchain =>
    refine (expr hR ha 0 he).bind fun w₁ a a' hw₁ hv =>
      (noteCondition "if" hv).bind fun w₂ _ _ hw₂ _ => ?_
    rw [hv.isTruthy]
    exact .ite (stmt hR ((ha.mono hw₁).mono hw₂) 1 hthen)
      (elifs hR ((ha.mono hw₁).mono hw₂) 2 hchain)
  | whileStmt he hbody => exact loop hR ha 0 he hbody
  | functionDecl hm hf =>
    exact (lift (Reshapes.declareFunction ha hm hf)).bind fun _ _ _ _ _ => .pure .normal
  | returnNone line => exact .pure (.returned .nil)
  | returnStmt line he => exact (expr hR ha 0 he).bind fun _ _ _ _ hv => .pure (.returned hv)
  | breakStmt line => exact .pure .broke
  | classDecl name hm hsuper hmethods =>
    exact (lift (Reshapes.declareClass hb ha hm name hsuper hmethods)).bind
      fun _ _ _ _ _ => .pure .normal

theorem ExprsReshaped.corresponds (ha : w.Along env marks env') {es es' : List (Expr Binding)}
    (hes : ExprsReshaped k marks es es') :
    Plan.Corresponds (reshaped k) R (fun w' => List.Forall₂ (Value.Reshaped k w')) w
      (Plan.ofExprs depth env es) (Plan.ofExprs depth env' es') := by
  cases hes with
  | nil => exact .pure .nil
  | cons he hrest =>
    exact (expr hR ha 0 he).bind fun w₁ a a' hw₁ hv =>
      (exprs hR (ha.mono hw₁) 1 hrest).bind fun w₂ values values' hw₂ hvs =>
        .pure (.cons (hv.mono hw₂) hvs)

theorem StmtsReshaped.corresponds (ha : w.Along env marks env') {body body' : List (Stmt Binding)}
    (hs : StmtsReshaped k marks body body') :
    Plan.Corresponds (reshaped k) R (Completion.Reshaped k) w (Plan.ofStmts depth env body)
      (Plan.ofStmts depth env' body') := by
  cases hs with
  | nil => exact .pure .normal
  | cons hs hrest =>
    refine (stmt hR ha 0 hs).bind fun w' completion completion' hw hc => ?_
    cases hc with
    | normal => exact stmts hR (ha.mono hw) 1 hrest
    | broke => exact .pure .broke
    | returned hv => exact .pure (.returned hv)

/-- A branch that is a branch in both trees. -/
theorem ChainReshaped.corresponds (ha : w.Along env marks env')
    {branches branches' : List (Elif Binding)} {last last' : Option (Stmt Binding)}
    (hc : ChainReshaped k marks branches last branches' last')
    (hn : ¬ (Code.node env (.elifs branches last)).Nests (.node env' (.elifs branches' last'))) :
    Plan.Corresponds (reshaped k) R (Completion.Reshaped k) w (Plan.ofElifs depth env branches last)
      (Plan.ofElifs depth env' branches' last') := by
  cases hc with
  | none => exact .pure .normal
  | some hs => exact stmt hR ha 0 hs
  | cons he hbody hrest =>
    refine (expr hR ha 0 he).bind fun w' a a' hw hv => ?_
    rw [hv.isTruthy]
    exact .ite (stmt hR (ha.mono hw) 1 hbody) (elifs hR (ha.mono hw) 2 hrest)
  | nest => exact absurd trivial hn

theorem Value.Reshaped.corresponds {callee callee' : Value} {values values' : List Value}
    (hc : Value.Reshaped k w callee callee')
    (hvs : List.Forall₂ (Value.Reshaped k w) values values') :
    Plan.Corresponds (reshaped k) R (Value.Reshaped k) w
      (Plan.ofCall settings depth callee values) (Plan.ofCall settings depth callee' values') := by
  cases hc with
  | function id hcode => exact closure hR 0 hcode hvs
  | native id function =>
    cases function
    exact .lift (Reshapes.readClock settings)
  | classRef hc =>
    rename_i c c'
    refine (lift Reshapes.newObject).bind fun w₁ object object' hw₁ ho => ?_
    subst ho
    have hobject := Value.Reshaped.object object' (hc.mono hw₁)
    have hmethod := (hc.mono hw₁).findMethod? initializerName
    generalize c.findMethod? initializerName = o, c'.findMethod? initializerName = o' at hmethod ⊢
    cases hmethod with
    | none => exact .pure hobject
    | some hcode =>
      exact (lift (Reshapes.bindMethod hcode hobject)).bind fun w₂ code code' hw₂ hcode =>
        (closure hR 0 hcode ((hvs.imp fun _ _ => Value.Reshaped.mono hw₁).imp
          fun _ _ => Value.Reshaped.mono hw₂)).bind fun w₃ _ _ hw₃ _ =>
            .pure ((hobject.mono hw₂).mono hw₃)
  | _ => exact .pure .nil

theorem Closure.Reshaped.corresponds {code code' : Closure} {values values' : List Value}
    (hc : Closure.Reshaped k w [] code code')
    (hvs : List.Forall₂ (Value.Reshaped k w) values values') :
    Plan.Corresponds (reshaped k) R (Value.Reshaped k) w (Plan.ofClosure depth code values)
      (Plan.ofClosure depth code' values') := by
  have hcode := hc
  cases hc with
  | @mk _ parameters _ _ _ _ _ _ ha _ hbody =>
    exact (lift (Reshapes.newEnv ha (Reshapes.argumentSlots parameters hvs .empty))).bind
      fun w₁ env env' hw₁ ha₁ => (stmts hR ha₁ 0 hbody).bind fun w₂ completion completion' hw₂ h =>
        .lift (Reshapes.callValue ((hcode.mono hw₁).mono hw₂) h)

end

section

variable {k : Reshaping} {w : Pairing} {env env' : EnvId} {marks : List ScopeMark}

/-- What a loop repeats is a round if the programs differ in those. -/
theorem BodyReshaped.calls (ha : w.Along env marks env') {condition' : Expr Binding}
    {body body' : Stmt Binding} (hbody : BodyReshaped k marks body body') :
    (Code.node env' (.loop condition' body')).calls k w (.node env (.stmt body))
      (.node env' (.stmt body')) (Completion.Reshaped k) := by
  unfold Code.calls
  have hround : (Code.node env' (.loop condition' body')).roundOf (.node env' (.stmt body')) =
      body'.isRound := rfl
  rw [hround]
  cases hbody with
  | whole hr hs =>
    have hnone : (body'.isRound && k = .rounds) = false := by
      cases k with
      | rounds => rw [hr rfl, Bool.false_and]
      | chains => exact Bool.and_false _
    rw [hnone]
    exact .stmt ha hs
  | round hk hr hs =>
    subst hk
    rw [hr]
    exact .round ha hs

/-- One round of a loop, whatever relates what it repeats. -/
theorem Plan.corresponds_ofLoop {R : CallRelation Pairing} {settings : Settings} (depth : Nat)
    {condition condition' : Expr Binding} {body body' : Stmt Binding}
    (hcondition : ∀ {w : Pairing}, w.Along env marks env' →
      R w (.node env (.expr condition)) (.node env' (.expr condition')) (Value.Reshaped k))
    (hround : ∀ {w : Pairing}, w.Along env marks env' →
      R w (.node env (.stmt body)) (.node env' (.stmt body')) (Completion.Reshaped k))
    (hnext : ∀ {w : Pairing}, w.Along env marks env' →
      R w (.node env (.loop condition body)) (.node env' (.loop condition' body'))
        (Completion.Reshaped k)) (ha : w.Along env marks env') :
    Plan.Corresponds (reshaped k) R (Completion.Reshaped k) w
      (Plan.ofLoop settings depth env condition body)
      (Plan.ofLoop settings depth env' condition' body') := by
  have htest : Plan.Corresponds (reshaped k) R (Value.Reshaped k) w
      (Plan.expr 0 depth env condition) (Plan.expr 0 depth env' condition') :=
    .visit (R := R) 0 depth (hcondition ha)
  refine htest.bind fun w₁ a a' hw₁ hv =>
    (Plan.Corresponds.noteCondition "while" hv).bind fun w₂ _ _ hw₂ _ => ?_
  rw [hv.isTruthy]
  refine .ite (.pure .normal) ?_
  have ha₂ := (ha.mono hw₁).mono hw₂
  have hbody : Plan.Corresponds (reshaped k) R (Completion.Reshaped k) w₂
      (Plan.stmt 1 depth env body) (Plan.stmt 1 depth env' body') :=
    .visit (R := R) 1 depth (hround ha₂)
  refine hbody.bind fun w₃ completion completion' hw₃ hc => ?_
  cases hc with
  | normal => exact .visit (R := R) 2 depth (hnext (ha₂.mono hw₃))
  | broke => exact .pure .normal
  | returned hv => exact .pure (.returned hv)

end

/-- One level of the evaluation of related codes. -/
theorem Code.Reshaped.corresponds {k : Reshaping} {w : Pairing} {settings : Settings}
    (hb : settings.lookup = .bound) (depth : Nat) {code code' : Code}
    {P : Pairing → code.Result → code'.Result → Prop} (h : Code.Reshaped k w false code code' P)
    (hn : ¬ code.Nests code') :
    Plan.Corresponds (reshaped k) (code'.calls k) P w (code.plan settings depth)
      (code'.plan settings depth) := by
  cases h with
  | expr ha he => exact he.corresponds depth (fun h => h) hb ha
  | exprs ha hes => exact hes.corresponds depth (fun h => h) ha
  | stmt ha hs => exact hs.corresponds depth (fun h => h) hb ha
  | stmts ha hs => exact hs.corresponds depth (fun h => h) ha
  | elifs ha hc => exact hc.corresponds depth (fun h => h) ha hn
  | loop ha he hbody =>
    exact Plan.corresponds_ofLoop depth (fun ha => Code.Reshaped.expr ha he)
      (fun ha => hbody.calls ha) (fun ha => Code.Reshaped.loop ha he hbody) ha
  | invoke hc hvs => exact hc.corresponds depth (fun h => h) hvs
  | closure hc hvs => exact hc.corresponds depth (fun h => h) hvs

end ClassScript
