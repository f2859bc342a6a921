import ClassScript.Proofs.Heap.Reach
import ClassScript.Proofs.Renaming.Steps

/-!
# Evaluation under other names

Trees that differ in the names of local variables are evaluated alike
(`Run.program_renames`).  The induction is on the fuel, for all kinds of trees at once
(`Run.Renaming`), and the world goes on with the environments that are made.
-/

namespace ClassScript

/-- A value without functions and objects in it. -/
theorem Value.Plain.renamed {a : Value} (h : a.Plain) (w : World) : Value.Renamed w a a := by
  cases a with
  | nil => exact .nil
  | boolean value => exact .boolean value
  | number value => exact .number value
  | string value => exact .string value
  | native id function => exact .native id function
  | function id code => cases h
  | classRef c => cases h
  | object id c => cases h

/-- The receiver of a method is known by the same word under all changes. -/
theorem Reference.rename_this (maps : List NameMap) (line : Nat) (binding : Binding) :
    Reference.rename maps ⟨⟨"this", line⟩, binding⟩ = ⟨⟨"this", line⟩, binding⟩ := by
  rw [Reference.rename, Name.rename, NameMap.map_this]

namespace Run

/-- With the given fuel, trees that differ in the names of local variables are evaluated
alike. -/
structure Renaming (settings : Settings) (fuel : Nat) : Prop where
  evaluate : ∀ (depth : Nat) {w : World} {env : EnvId} {maps : List NameMap}, w.Along env maps →
    ∀ {e e' : Expr Binding}, Expr.Renamed maps e e' →
    Renames Value.Renamed w (evaluate settings fuel depth env e)
      (evaluate settings fuel depth env e')
  evaluateAll : ∀ (depth : Nat) {w : World} {env : EnvId} {maps : List NameMap},
    w.Along env maps → ∀ {es es' : List (Expr Binding)}, ExprsRenamed maps es es' →
    Renames (fun w' => List.Forall₂ (Value.Renamed w')) w
      (evaluateAll settings fuel depth env es) (evaluateAll settings fuel depth env es')
  invoke : ∀ (depth : Nat) {w : World} {callee callee' : Value} {values values' : List Value},
    Value.Renamed w callee callee' → List.Forall₂ (Value.Renamed w) values values' →
    Renames Value.Renamed w (invoke settings fuel depth callee values)
      (invoke settings fuel depth callee' values')
  runCode : ∀ (depth : Nat) {w : World} {code code' : Closure} {values values' : List Value},
    Closure.Renamed w [] code code' → List.Forall₂ (Value.Renamed w) values values' →
    Renames Value.Renamed w (runCode settings fuel depth code values)
      (runCode settings fuel depth code' values')
  execute : ∀ (depth : Nat) {w : World} {env : EnvId} {maps : List NameMap}, w.Along env maps →
    ∀ {s s' : Stmt Binding}, Stmt.Renamed maps s s' →
    Renames Completion.Renamed w (execute settings fuel depth env s)
      (execute settings fuel depth env s')
  executeAll : ∀ (depth : Nat) {w : World} {env : EnvId} {maps : List NameMap},
    w.Along env maps → ∀ {body body' : List (Stmt Binding)}, StmtsRenamed maps body body' →
    Renames Completion.Renamed w (executeAll settings fuel depth env body)
      (executeAll settings fuel depth env body')
  executeElifs : ∀ (depth : Nat) {w : World} {env : EnvId} {maps : List NameMap},
    w.Along env maps → ∀ {branches branches' : List (Elif Binding)}
      {elseBranch elseBranch' : Option (Stmt Binding)}, ElifsRenamed maps branches branches' →
    ElseRenamed maps elseBranch elseBranch' →
    Renames Completion.Renamed w (executeElifs settings fuel depth env branches elseBranch)
      (executeElifs settings fuel depth env branches' elseBranch')
  executeLoop : ∀ (depth : Nat) {w : World} {env : EnvId} {maps : List NameMap},
    w.Along env maps → ∀ {condition condition' : Expr Binding} {body body' : Stmt Binding},
    Expr.Renamed maps condition condition' → Stmt.Renamed maps body body' →
    Renames Completion.Renamed w (executeLoop settings fuel depth env condition body)
      (executeLoop settings fuel depth env condition' body')

namespace Renaming

open Comparison

variable {settings : Settings} {fuel : Nat}

theorem zero : Renaming settings 0 := by
  constructor <;> intros <;>
    simp only [Run.evaluate, Run.evaluateAll, Run.invoke, Run.runCode, Run.execute, Run.executeAll,
      Run.executeElifs, Run.executeLoop]
  all_goals exact Simulates.throw .outOfFuel

variable (hb : settings.lookup = .bound) (hquiet : settings.verbosity < 2)
  (h : Renaming settings fuel) (depth : Nat) {w : World} {env : EnvId} {maps : List NameMap}

section

include h

include hb in
theorem evaluate_succ (ha : w.Along env maps) {e e' : Expr Binding} (he : Expr.Renamed maps e e') :
    Renames Value.Renamed w (Run.evaluate settings (fuel + 1) depth env e)
      (Run.evaluate settings (fuel + 1) depth env e') := by
  cases he <;> simp only [Run.evaluate]
  case literal value => exact Simulates.pure ((Value.plain_ofLiteral value).renamed w)
  case grouping inner inner' he => exact h.evaluate depth ha he
  case unary operand operand' op line he =>
    refine (h.evaluate depth ha he).bind fun w' a a' _ hv => ?_
    exact Renames.orFail line (hv.unary op) fun b hr => (UnaryOp.plain_of_apply hr).renamed w'
  case binary left left' right right' op line he he' =>
    refine (h.evaluate depth ha he).bind fun w₁ a a' hw₁ hv =>
      (h.evaluate depth (ha.mono hw₁) he').bind fun w₂ b b' hw₂ hv' => ?_
    exact Renames.orFail line ((hv.mono hw₂).binary op hv') fun c hr =>
      (BinaryOp.plain_of_apply hr).renamed w₂
  case logical left left' right right' op line he he' =>
    refine (h.evaluate depth ha he).bind fun w' a a' hw hv => ?_
    rw [hv.decides]
    exact Simulates.ite (Simulates.pure hv) (h.evaluate depth (ha.mono hw) he')
  case «variable» target => exact Renames.read hb ha target
  case assign value value' target he =>
    exact (h.evaluate depth ha he).bind fun w₁ a a' hw₁ hv =>
      (Renames.write hb (ha.mono hw₁) target hv).bind fun w₂ _ _ hw₂ _ =>
        Simulates.pure (hv.mono hw₂)
  case call callee callee' arguments arguments' line he hes =>
    refine (h.evaluate depth ha he).bind fun w₁ a a' hw₁ hv =>
      (h.evaluateAll depth (ha.mono hw₁) hes).bind fun w₂ values values' hw₂ hvs => ?_
    rw [← hvs.length_eq]
    exact (Renames.checkCall settings depth (hv.mono hw₂) values.length line).bind
      fun w₃ _ _ hw₃ _ => h.invoke (depth + 1) ((hv.mono hw₂).mono hw₃)
        (hvs.imp fun _ _ => Value.Renamed.mono hw₃)
  case get object object' property he =>
    refine (h.evaluate depth ha he).bind fun w' a a' _ hv => ?_
    cases hv with
    | object id hc => exact Renames.getProperty id hc property
    | _ => exact Renames.fail _ _
  case set object object' value value' field he he' =>
    refine (h.evaluate depth ha he).bind fun w₁ a a' hw₁ hv => ?_
    cases hv with
    | object id hc =>
      exact (h.evaluate depth (ha.mono hw₁) he').bind fun w₂ b b' _ hv' =>
        (Renames.setField id field.text hv').bind fun w₃ _ _ hw₃ _ =>
          Simulates.pure (hv'.mono hw₃)
    | _ => exact Renames.fail _ _
  case this line binding =>
    have hr := Renames.read hb ha ⟨⟨"this", line⟩, binding⟩
    rwa [Reference.rename_this] at hr
  case super line method binding => exact Renames.getSuper ha binding method
  case lambda body body' line parameters ρ hbody =>
    exact Renames.newFunction (.mk parameters false ρ ha hbody)

theorem evaluateAll_succ (ha : w.Along env maps) {es es' : List (Expr Binding)}
    (hes : ExprsRenamed maps es es') :
    Renames (fun w' => List.Forall₂ (Value.Renamed w')) w
      (Run.evaluateAll settings (fuel + 1) depth env es)
      (Run.evaluateAll settings (fuel + 1) depth env es') := by
  cases hes <;> simp only [Run.evaluateAll]
  case nil => exact Simulates.pure .nil
  case cons e e' rest rest' he hrest =>
    exact (h.evaluate depth ha he).bind fun w₁ a a' hw₁ hv =>
      (h.evaluateAll depth (ha.mono hw₁) hrest).bind fun w₂ values values' hw₂ hvs =>
        Simulates.pure (.cons (hv.mono hw₂) hvs)

theorem invoke_succ {callee callee' : Value} {values values' : List Value}
    (hc : Value.Renamed w callee callee') (hvs : List.Forall₂ (Value.Renamed w) values values') :
    Renames Value.Renamed w (Run.invoke settings (fuel + 1) depth callee values)
      (Run.invoke settings (fuel + 1) depth callee' values') := by
  cases hc with
  | function id hcode =>
    simp only [Run.invoke]
    exact h.runCode depth hcode hvs
  | native id function =>
    cases function
    simp only [Run.invoke]
    exact Renames.readClock settings
  | classRef hc =>
    rename_i c c'
    simp only [Run.invoke]
    refine Renames.newObject.bind fun w₁ object object' hw₁ ho => ?_
    subst ho
    have hobject := Value.Renamed.object object' (hc.mono hw₁)
    have hmethod := (hc.mono hw₁).findMethod? initializerName
    generalize c.findMethod? initializerName = o, c'.findMethod? initializerName = o' at hmethod ⊢
    cases hmethod with
    | none => exact Simulates.pure hobject
    | some hcode =>
      exact (Renames.bindMethod hcode hobject).bind fun w₂ code code' hw₂ hcode =>
        (h.runCode depth hcode ((hvs.imp fun _ _ => Value.Renamed.mono hw₁).imp
          fun _ _ => Value.Renamed.mono hw₂)).bind fun w₃ _ _ hw₃ _ =>
            Simulates.pure ((hobject.mono hw₂).mono hw₃)
  | _ =>
    simp only [Run.invoke]
    exact Simulates.pure .nil

theorem runCode_succ {code code' : Closure} {values values' : List Value}
    (hc : Closure.Renamed w [] code code') (hvs : List.Forall₂ (Value.Renamed w) values values') :
    Renames Value.Renamed w (Run.runCode settings (fuel + 1) depth code values)
      (Run.runCode settings (fuel + 1) depth code' values') := by
  simp only [Run.runCode]
  have hcode := hc
  cases hc with
  | mk parameters isInitializer ρ ha hbody =>
    refine (Renames.newEnv ha ρ (Renames.argumentSlots ρ parameters hvs .empty)).bind
      fun w₁ env env' hw₁ henv => ?_
    obtain ⟨rfl, ha₁⟩ := henv
    exact (h.executeAll depth ha₁ hbody).bind fun w₂ completion completion' hw₂ hcompletion =>
      Renames.callValue ((hcode.mono hw₁).mono hw₂) hcompletion

include hb hquiet in
theorem execute_succ (ha : w.Along env maps) {s s' : Stmt Binding} (hs : Stmt.Renamed maps s s') :
    Renames Completion.Renamed w (Run.execute settings (fuel + 1) depth env s)
      (Run.execute settings (fuel + 1) depth env s') := by
  have hnote : ¬ 3 ≤ settings.verbosity := by omega
  cases hs <;> simp only [Run.execute]
  case expression value value' he =>
    exact (h.evaluate depth ha he).bind fun _ _ _ _ _ => Simulates.pure .normal
  case print value value' he =>
    refine (h.evaluate depth ha he).bind fun w' a a' _ hv => ?_
    rw [hv.text]
    exact (Renames.emit _).bind fun _ _ _ _ _ => Simulates.pure .normal
  case varNone name =>
    exact (Renames.declareVariable hquiet ha name .nil).bind fun _ _ _ _ _ =>
      Simulates.pure .normal
  case var value value' name he =>
    exact (h.evaluate depth ha he).bind fun w' a a' hw hv =>
      (Renames.declareVariable hquiet (ha.mono hw) name hv).bind fun _ _ _ _ _ =>
        Simulates.pure .normal
  case block body body' ρ hbody =>
    refine (Renames.newEnv ha ρ .empty).bind fun w' inner inner' _ hinner => ?_
    obtain ⟨rfl, ha'⟩ := hinner
    exact h.executeAll depth ha' hbody
  case ifStmt condition condition' thenBranch thenBranch' elifs elifs' elseBranch elseBranch'
      he hthen helifs helse =>
    refine (h.evaluate depth ha he).bind fun w' a a' hw hv => ?_
    rw [if_neg hnote, if_neg hnote, hv.isTruthy]
    exact Simulates.ite (h.execute depth (ha.mono hw) hthen)
      (h.executeElifs depth (ha.mono hw) helifs helse)
  case whileStmt condition condition' body body' he hbody => exact h.executeLoop depth ha he hbody
  case functionDecl f f' hname hf =>
    exact (Renames.declareFunction hquiet ha hname hf).bind fun _ _ _ _ _ =>
      Simulates.pure .normal
  case returnNone line => exact Simulates.pure (.returned .nil)
  case returnStmt value value' line he =>
    exact (h.evaluate depth ha he).bind fun _ _ _ _ hv => Simulates.pure (.returned hv)
  case breakStmt line => exact Simulates.pure .broke
  case classDecl name superclass methods methods' hname hm =>
    exact (Renames.declareClass hb hquiet ha hname hm).bind fun _ _ _ _ _ =>
      Simulates.pure .normal

theorem executeAll_succ (ha : w.Along env maps) {body body' : List (Stmt Binding)}
    (hbody : StmtsRenamed maps body body') :
    Renames Completion.Renamed w (Run.executeAll settings (fuel + 1) depth env body)
      (Run.executeAll settings (fuel + 1) depth env body') := by
  cases hbody <;> simp only [Run.executeAll]
  case nil => exact Simulates.pure .normal
  case cons s s' rest rest' hs hrest =>
    refine (h.execute depth ha hs).bind fun w' completion completion' hw hcompletion => ?_
    cases hcompletion with
    | normal => exact h.executeAll depth (ha.mono hw) hrest
    | broke => exact Simulates.pure .broke
    | returned hv => exact Simulates.pure (.returned hv)

theorem executeElifs_succ (ha : w.Along env maps) {branches branches' : List (Elif Binding)}
    {elseBranch elseBranch' : Option (Stmt Binding)} (he : ElifsRenamed maps branches branches')
    (helse : ElseRenamed maps elseBranch elseBranch') :
    Renames Completion.Renamed w
      (Run.executeElifs settings (fuel + 1) depth env branches elseBranch)
      (Run.executeElifs settings (fuel + 1) depth env branches' elseBranch') := by
  cases he with
  | nil =>
    cases helse <;> simp only [Run.executeElifs]
    case none => exact Simulates.pure .normal
    case some s s' hs => exact h.execute depth ha hs
  | cons hcondition hbody hrest =>
    simp only [Run.executeElifs]
    refine (h.evaluate depth ha hcondition).bind fun w' a a' hw hv => ?_
    rw [hv.isTruthy]
    exact Simulates.ite (h.execute depth (ha.mono hw) hbody)
      (h.executeElifs depth (ha.mono hw) hrest helse)

include hquiet in
theorem executeLoop_succ (ha : w.Along env maps) {condition condition' : Expr Binding}
    {body body' : Stmt Binding} (he : Expr.Renamed maps condition condition')
    (hbody : Stmt.Renamed maps body body') :
    Renames Completion.Renamed w (Run.executeLoop settings (fuel + 1) depth env condition body)
      (Run.executeLoop settings (fuel + 1) depth env condition' body') := by
  have hnote : ¬ 3 ≤ settings.verbosity := by omega
  simp only [Run.executeLoop]
  refine (h.evaluate depth ha he).bind fun w₁ a a' hw₁ hv => ?_
  rw [if_neg hnote, if_neg hnote, hv.isTruthy]
  refine Simulates.ite (Simulates.pure .normal) ?_
  refine (h.execute depth (ha.mono hw₁) hbody).bind
    fun w₂ completion completion' hw₂ hcompletion => ?_
  cases hcompletion with
  | normal => exact h.executeLoop depth ((ha.mono hw₁).mono hw₂) he hbody
  | broke => exact Simulates.pure .normal
  | returned hv => exact Simulates.pure (.returned hv)

include hb hquiet in
theorem succ : Renaming settings (fuel + 1) where
  evaluate := h.evaluate_succ hb
  evaluateAll := h.evaluateAll_succ
  invoke := h.invoke_succ
  runCode := h.runCode_succ
  execute := h.execute_succ hb hquiet
  executeAll := h.executeAll_succ
  executeElifs := h.executeElifs_succ
  executeLoop := h.executeLoop_succ hquiet

end

include hb hquiet in
theorem all : ∀ fuel, Renaming settings fuel
  | 0 => zero
  | fuel + 1 => (all fuel).succ hb hquiet

end Renaming

/-- Programs that differ in the names of local variables run alike. -/
theorem program_renames {settings : Settings} (hb : settings.lookup = .bound)
    (hquiet : settings.verbosity < 2) (fuel : Nat) {w : World} (ha : w.Along .globals [])
    {p p' : Program Binding} (hp : StmtsRenamed [] p p') :
    Renames Done w (program settings fuel p) (program settings fuel p') := by
  induction p generalizing w p' with
  | nil =>
    cases hp
    exact Comparison.Simulates.pure trivial
  | cons s rest ih =>
    cases hp with
    | cons hs hrest =>
      exact ((Renaming.all hb hquiet fuel).execute 0 ha hs).bind fun _ _ _ hw _ =>
        ih (ha.mono hw) hrest

end Run

end ClassScript
