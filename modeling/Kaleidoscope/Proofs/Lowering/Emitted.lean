import Kaleidoscope.Proofs.Lowering.Builds

/-!
Lowering an expression emits its code: where it succeeds, the relation `Lowers` holds between the sites before and
after it.
-/

namespace Kaleidoscope

open Kaleidoscope.Flow

namespace Lowering

variable {α : Type} {id : Nat} {c : Context} {s : Site} {scope : Scope} {post : Context → α → Site → Prop}

theorem Builds.operatorFunction {name : String} {reason : LoweringError} {k : Nat → Lowering α}
    (registered : c.Registered) (inside : id < c.size)
    (later : ∀ d callee, c.Extends d → d.builder.find? name = some callee → Builds id d s (k callee) post) :
    Builds id c s (Lowering.operatorFunction name reason >>= k) post := by
  refine .via (fun d callee t => t = s ∧ d.builder.find? name = some callee) ?_ ?_
  · refine .function? registered inside (fun d callee _ found => ?_) (.throw reason)
    exact .pure ⟨rfl, found⟩
  · intro d callee t grown ⟨same, found⟩
    subst same
    exact later d callee grown found

theorem Builds.calleeFor {name : String} {count : Nat} {k : Nat → Lowering α}
    (registered : c.Registered) (inside : id < c.size)
    (later : ∀ d callee, c.Extends d → d.builder.find? name = some callee →
      d.builder.paramCount callee = count → Builds id d s (k callee) post) :
    Builds id c s (Lowering.calleeFor name count >>= k) post := by
  refine .via (fun d callee t => t = s ∧ d.builder.find? name = some callee ∧
    d.builder.paramCount callee = count) ?_ ?_
  · refine .function? registered inside (fun d callee grown found => ?_) (.throw (.unknownFunction name))
    have expected : ∀ e, d.Alike e →
        (e.building id s).builder.paramCount callee = d.builder.paramCount callee := fun e alike => by
      rw [Context.paramCount_building, alike.paramCount]
    by_cases same : d.builder.paramCount callee = count
    · refine .last (fun e alike => ?_) ⟨rfl, found, same⟩
      show (if (e.building id s).builder.paramCount callee = count then Pure.pure callee else _ : Lowering Nat) _ = _
      rw [expected e alike, if_pos same]
      rfl
    · refine ⟨.error (.argumentCount name (d.builder.paramCount callee) count), s, [], trivial,
        fun e alike => ?_, fun _ impossible => by cases impossible⟩
      show (if (e.building id s).builder.paramCount callee = count then Pure.pure callee else
        MonadExcept.throw (.argumentCount name ((e.building id s).builder.paramCount callee) count) :
          Lowering Nat) _ = _
      rw [expected e alike, if_neg same]
      rfl
  · intro d callee t grown ⟨same, found, count⟩
    subst same
    exact later d callee grown found count

/-- What it means that lowering `exprs` with `x` emits their code. -/
def Emits (exprs : List Expr) (x : Lowering α) (operands : α → List Operand) : Prop :=
  ∀ (id : Nat) (c : Context) (s : Site) (scope : Scope), c.Registered → id < c.size → c.scope = scope.names →
    Builds id c s x fun d value t => ∀ m, d.Resolved m → Lowers m scope exprs s (operands value) t

theorem binding_names (names : c.scope = scope.names) (name : String) (slot : Operand) :
    (c.binding name slot).scope = Scope.names ((name, slot) :: scope) :=
  congrArg (·.insert name slot) names

private theorem endBranch_runs (inside : id < c.size) (value result : Operand) (after : Nat) :
    ∀ d, c.Alike d → endBranch value result ⟨id, after⟩ (d.building id s) =
      (.ok (), d.building id ((s.push (.store value result) "").push (.jump after) "")) := by
  intro d alike
  rw [endBranch, bind_apply]
  simp only [Builder.store, perform_runs inside _ d alike]
  exact perform_runs inside _ d alike

private theorem condition_emits {test yes no : Expr} {first second : Lowering Operand} {v : Operand} {t : Site}
    (registered : c.Registered) (inside : id < c.size) (names : c.scope = scope.names)
    (tested : ∀ m, c.Resolved m → Lowers m scope [test] s [v] t)
    (yesEmits : Emits [yes] first fun a => [a]) (noEmits : Emits [no] second fun a => [a]) :
    Builds id c t (condition v first second) fun d value u =>
      ∀ m, d.Resolved m → Lowers m scope [.cond test yes no] s [value] u := by
  unfold condition flagOf
  refine .step (emit_runs inside fun _ here => Context.emit_building here _ _) ?_
  refine .step currentFunction_runs ?_
  refine .step (emit_runs inside fun _ here => Context.slot_building here _) ?_
  refine .step (emit_runs inside fun _ here => Context.addBlock_building here _) ?_
  refine .step (emit_runs inside fun _ here => Context.addBlock_building here _) ?_
  refine .step (emit_runs inside fun _ here => Context.addBlock_building here _) ?_
  refine .step (perform_runs inside _) ?_
  refine .step (update_runs inside fun _ here => Context.positionAt_building _) ?_
  simp only [Site.addBlock_nextBlock]
  refine .bind (yesEmits id c (t.fork v) scope registered inside names) fun d a u grown built => ?_
  have inside := grown.inside inside
  refine .step (endBranch_runs inside _ _ _) ?_
  refine .step (update_runs inside fun _ here => Context.moveToEnd_building _) ?_
  refine .step (update_runs inside fun _ here => Context.positionAt_building _) ?_
  have names := grown.scope.trans names
  refine .bind (noEmits id d _ scope (grown.registered registered) inside names) fun e b w later built' => ?_
  have inside := later.inside inside
  refine .step (endBranch_runs inside _ _ _) ?_
  refine .step (update_runs inside fun _ here => Context.moveToEnd_building _) ?_
  refine .step (update_runs inside fun _ here => Context.positionAt_building _) ?_
  refine .last (emit_runs inside fun _ here => Context.emit_building here _ _) fun m resolved => ?_
  have known := later.resolved resolved
  exact .cond (tested m (grown.resolved known)) (built m known) (built' m resolved)

private theorem loop_emits {name : String} {start stop body : Expr} {step : Option Expr}
    {starts runs moves tests : Lowering Operand} (registered : c.Registered) (inside : id < c.size)
    (names : c.scope = scope.names) (startEmits : Emits [start] starts fun a => [a])
    (bodyEmits : Emits [body] runs fun a => [a]) (stepEmits : Emits [step.getD (.number .one)] moves fun a => [a])
    (stopEmits : Emits [stop] tests fun a => [a]) :
    Builds id c s (loop name starts runs moves tests) fun d value u =>
      ∀ m, d.Resolved m → Lowers m scope [.loop name start stop step body] s [value] u := by
  unfold loop
  refine .step currentFunction_runs ?_
  refine .step (emit_runs inside fun _ here => Context.slot_building here _) ?_
  refine .bind (startEmits id c (s.addSlot name) scope registered inside names) fun d first t grown started => ?_
  have inside := grown.inside inside
  refine .step (perform_runs inside _) ?_
  refine .step (emit_runs inside fun _ here => Context.addBlock_building here _) ?_
  refine .step (perform_runs inside _) ?_
  refine .step (update_runs inside fun _ here => Context.positionAt_building _) ?_
  simp only [Site.push_nextBlock]
  refine .via (fun e flag w => ∃ ignored stride value u,
    (∀ m, e.Resolved m → Lowers m ((name, s.next) :: scope) [body, step.getD (.number .one), stop]
      (t.enterLoop first s.next) [ignored, stride, value] u) ∧
    flag = (u.advance name s.next stride).next ∧
    w = (u.advance name s.next stride).test value "loopcond") ?_ ?_
  · refine .withName ?_
    have registered := grown.registered registered
    have names := binding_names (grown.scope.trans names) name s.next
    refine .bind (bodyEmits id _ _ _ registered inside names) fun d₁ ignored u₁ grown₁ built₁ => ?_
    have inside := grown₁.inside inside
    have registered := grown₁.registered registered
    have names := grown₁.scope.trans names
    refine .bind (stepEmits id _ _ _ registered inside names) fun d₂ stride u₂ grown₂ built₂ => ?_
    have inside := grown₂.inside inside
    have registered := grown₂.registered registered
    have names := grown₂.scope.trans names
    refine .bind (stopEmits id _ _ _ registered inside names) fun d₃ value u₃ grown₃ built₃ => ?_
    have inside := grown₃.inside inside
    unfold loopEnd flagOf
    refine .step (emit_runs inside fun _ here => Context.emit_building here _ _) ?_
    refine .step (emit_runs inside fun _ here => Context.arith_building here _ _ _ _) ?_
    refine .step (perform_runs inside _) ?_
    refine .last (emit_runs inside fun _ here => Context.emit_building here _ _) ?_
    refine ⟨ignored, stride, value, u₃, fun m resolved => ?_, rfl, rfl⟩
    have known := grown₃.resolved resolved
    exact .cons (built₁ m (grown₂.resolved known)) (.cons (built₂ m known) (built₃ m resolved))
  · rintro e flag w later ⟨ignored, stride, value, u, round, same, site⟩
    subst same site
    have inside := later.inside inside
    refine .step (emit_runs inside fun _ here => Context.addBlock_building here _) ?_
    refine .step (perform_runs inside _) ?_
    refine .step (update_runs inside fun _ here => Context.positionAt_building _) ?_
    simp only [Site.test_nextBlock]
    refine .pure fun m resolved => ?_
    have built := Lowers.loop (started m (later.resolved resolved)) (round m resolved)
    dsimp only [Site.leaveLoop] at built ⊢
    exact built

/-- What an operator does once its operands have been lowered. -/
theorem binaryOperator_emits {op : Char} {lhs rhs : Expr} {l r : Operand} {t : Site} (registered : c.Registered)
    (inside : id < c.size) (other : op ≠ '=')
    (operands : ∀ m, c.Resolved m → Lowers m scope [lhs, rhs] s [l, r] t) :
    Builds id c t (binaryOperator op l r) fun d value u =>
      ∀ m, d.Resolved m → Lowers m scope [.binary op lhs rhs] s [value] u := by
  unfold binaryOperator
  split
  · exact .last (emit_runs inside fun _ here => Context.arith_building here _ _ _ _)
      fun m resolved => .arith rfl (operands m resolved)
  · exact .last (emit_runs inside fun _ here => Context.arith_building here _ _ _ _)
      fun m resolved => .arith rfl (operands m resolved)
  · exact .last (emit_runs inside fun _ here => Context.arith_building here _ _ _ _)
      fun m resolved => .arith rfl (operands m resolved)
  · refine .step (emit_runs inside fun _ here => Context.emit_building here _ _) ?_
    exact .last (emit_runs inside fun _ here => Context.emit_building here _ _)
      fun m resolved => .less (operands m resolved)
  · next plus minus times less =>
    refine .operatorFunction registered inside fun d callee grown found => ?_
    refine .last (emit_runs (grown.inside inside) fun _ here => Context.emit_building here _ _) fun m resolved => ?_
    refine .binary ⟨other, less, ?_⟩ (operands m (grown.resolved resolved)) (resolved _ callee found).1
    unfold Expr.arithmetic?
    split <;> first | rfl | contradiction

theorem newVariable_runs (inside : id < c.size) (name : String) (value : Operand) :
    ∀ d, c.Alike d → newVariable id name value (d.building id s) =
      (.ok s.next, d.building id (s.newVariable name value)) := by
  intro d alike
  have slot : emit (·.slot id name) (d.building id s) = (.ok s.next, d.building id (s.addSlot name)) :=
    emit_runs inside (fun _ here => Context.slot_building here name) d alike
  rw [newVariable, bind_apply]
  simp only [slot, bind_apply, Builder.store, perform_runs inside _ d alike]
  rfl

mutual

theorem expr_emits : (e : Expr) → Emits [e] (expr e) fun v => [v]
  | .number value => fun _ _ _ _ _ _ _ => by
    rw [expr]
    exact .pure fun _ _ => .number
  | .var name => fun _ _ _ scope _ inside names => by
    rw [expr]
    refine .lookup fun slot bound => ?_
    rw [names, Scope.get?_names] at bound
    exact .last (emit_runs inside fun _ here => Context.emit_building here _ _) fun _ _ => .var bound
  | .binary op lhs rhs => fun id c s scope registered inside names => by
    rw [expr.eq_def]
    dsimp only
    split
    · next assignment =>
      subst assignment
      split
      · refine .bind (expr_emits rhs id c s scope registered inside names) fun d v t grown built => ?_
        refine .lookup fun slot bound => ?_
        refine .step (perform_runs (grown.inside inside) _) ?_
        rw [grown.scope, names, Scope.get?_names] at bound
        exact .pure fun m resolved => .assign (built m resolved) bound
      · exact .throw _
    · next other =>
      refine .bind (expr_emits lhs id c s scope registered inside names) fun d l t grown built => ?_
      have inside := grown.inside inside
      have registered := grown.registered registered
      have names := grown.scope.trans names
      refine .bind (expr_emits rhs id d t scope registered inside names) fun e r u later built' => ?_
      exact binaryOperator_emits (later.registered registered) (later.inside inside) other
        fun m resolved => .cons (built m (later.resolved resolved)) (built' m resolved)
  | .unary op operand => fun id c s scope registered inside names => by
    rw [expr]
    refine .bind (expr_emits operand id c s scope registered inside names) fun d v t grown built => ?_
    have inside := grown.inside inside
    refine .operatorFunction (grown.registered registered) inside fun e callee later found => ?_
    exact .last (emit_runs (later.inside inside) fun _ here => Context.emit_building here _ _)
      fun m resolved => .unary (built m (later.resolved resolved)) (resolved _ callee found).1
  | .cond test yes no => fun id c s scope registered inside names => by
    rw [expr]
    refine .bind (expr_emits test id c s scope registered inside names) fun d v t grown built => ?_
    exact condition_emits (grown.registered registered) (grown.inside inside) (grown.scope.trans names) built
      (expr_emits yes) (expr_emits no)
  | .loop name start stop step body => fun id c s scope registered inside names => by
    rw [expr]
    exact loop_emits registered inside names (expr_emits start) (expr_emits body) (stepValue_emits step)
      (expr_emits stop)
  | .call name args => fun id c s scope registered inside names => by
    rw [expr]
    refine .calleeFor registered inside fun d callee grown found count => ?_
    have inside := grown.inside inside
    refine .bind (arguments_emits args id d s scope (grown.registered registered) inside (grown.scope.trans names))
      fun e vs t later built => ?_
    refine .last (emit_runs (later.inside inside) fun _ here => Context.emit_building here _ _)
      fun m resolved => ?_
    obtain ⟨same, params⟩ := later.resolved resolved name callee found
    exact .call same (params.trans count) (built m resolved)
  | .declaration proto => fun _ _ _ _ _ _ _ => by
    rw [expr]
    exact .throw _
  | .definition proto _ => fun _ _ _ _ _ _ _ => by
    rw [expr]
    exact .throw _
  | .bind bindings body => fun id c s scope registered inside names => by
    rw [expr]
    refine .step currentFunction_runs ?_
    exact withBindings_emits bindings (expr_emits body) id c s scope registered inside names

theorem stepValue_emits : (step : Option Expr) →
    Emits [step.getD (.number .one)] (stepValue step) fun v => [v]
  | none => fun _ _ _ _ _ _ _ => by
    rw [stepValue]
    exact .pure fun _ _ => .number
  | some step => by
    rw [stepValue]
    exact expr_emits step

theorem arguments_emits : (args : List Expr) → Emits args (arguments args) fun vs => vs
  | [] => fun _ _ _ _ _ _ _ => by
    rw [arguments]
    exact .pure fun _ _ => .nil
  | arg :: args => fun id c s scope registered inside names => by
    rw [arguments]
    refine .bind (expr_emits arg id c s scope registered inside names) fun d v t grown built => ?_
    refine .bind (arguments_emits args id d t scope (grown.registered registered) (grown.inside inside)
      (grown.scope.trans names)) fun e vs u later built' => ?_
    exact .pure fun m resolved => .cons (built m (later.resolved resolved)) (built' m resolved)

theorem withBindings_emits : (bindings : List (String × Expr)) → {body : Expr} →
    Emits [body] (expr body) (fun v => [v]) → (id : Nat) → (c : Context) → (s : Site) → (scope : Scope) →
    c.Registered → id < c.size → c.scope = scope.names →
    Builds id c s (withBindings (bindEach id bindings []) (expr body)) fun d value t =>
      ∀ m, d.Resolved m → Lowers m scope [.bind bindings body] s [value] t
  | [], body => fun bodyEmits id c s scope registered inside names => by
    rw [withBindings_nil]
    exact (bodyEmits id c s scope registered inside names).mono
      fun _ _ _ _ built m resolved => .bindNone (built m resolved)
  | (name, init) :: bindings, body => fun bodyEmits id c s scope registered inside names => by
    rw [withBindings_cons]
    refine .bind (expr_emits init id c s scope registered inside names) fun d v t grown built => ?_
    have inside := grown.inside inside
    refine .step (newVariable_runs inside name v) ?_
    have others := withBindings_emits bindings bodyEmits id (d.binding name t.next) (t.newVariable name v)
      ((name, t.next) :: scope) (grown.registered registered) inside
      (binding_names (grown.scope.trans names) name t.next)
    refine .withName (others.mono fun e w u later built' m resolved => ?_)
    exact .bindOne (built m (later.resolved resolved)) (built' m resolved)

end

end Lowering

end Kaleidoscope
