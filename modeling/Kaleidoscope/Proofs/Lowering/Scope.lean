import Kaleidoscope.Proofs.Lowering.Checker

/-!
Scopes are restored. Whatever expression is lowered, and wherever that fails, the variables in scope are afterwards what
they were before: each construct that binds names gives them back what they had on every way out.
-/

namespace Kaleidoscope

open Kaleidoscope.Flow

namespace Context

private theorem scope_restore_congr {c d : Context} (same : c.scope = d.scope) (name : String)
    (shadowed : Option Operand) : (c.restore name shadowed).scope = (d.restore name shadowed).scope := by
  cases shadowed <;> simp only [restore, same]

private theorem prototypes_restore (c : Context) (name : String) (shadowed : Option Operand) :
    (c.restore name shadowed).prototypes = c.prototypes := by
  cases shadowed <;> rfl

end Context

namespace Lowering

variable {α β : Type}

/-- However it ends, `x` leaves the variables in scope and the prototypes as it found them. -/
def Restores (x : Lowering α) : Prop := ∀ c, (x c).2.scope = c.scope ∧ (x c).2.prototypes = c.prototypes

namespace Restores

/-- A failure of the first step ends both, so what follows matters only if that succeeds. -/
theorem bind {x : Lowering α} {k : α → Lowering β} (first : Restores x) (later : ∀ value, Restores (k value)) :
    Restores (x >>= k) := by
  intro c
  have restored := first c
  rw [bind_apply]
  generalize x c = ran at restored ⊢
  obtain ⟨result, d⟩ := ran
  cases result with
  | error reason => exact restored
  | ok value =>
    obtain ⟨scope, prototypes⟩ := later value d
    exact ⟨scope.trans restored.1, prototypes.trans restored.2⟩

theorem currentFunction : Restores Lowering.currentFunction := by
  intro c
  rw [currentFunction_apply]
  cases c.builder.current? <;> exact ⟨rfl, rfl⟩

theorem lookup (name : String) : Restores (Lowering.lookup name) := by
  intro c
  rw [lookup_apply]
  cases c.scope.get? name <;> exact ⟨rfl, rfl⟩

/-- When `body` ends, the name is bound to its slot and all others to what they were, so that giving the name back what
it had undoes the binding. -/
theorem withName {name : String} {slot : Operand} {body : Lowering α} (inner : Restores body) :
    Restores (Lowering.withName name slot body) := by
  intro c
  obtain ⟨scope, prototypes⟩ := inner (c.binding name slot)
  rw [withName_apply]
  constructor
  · rw [Context.scope_restore_congr scope, Context.restore_binding]
  · rw [Context.prototypes_restore, prototypes]
    rfl

theorem declare (proto : Prototype) : Restores (Lowering.declare proto) := by
  intro c
  rw [declare_apply]
  split
  · split <;> exact ⟨rfl, rfl⟩
  · exact ⟨rfl, rfl⟩

theorem function? (name : String) : Restores (Lowering.function? name) := by
  intro c
  rw [function?_apply]
  cases c.builder.find? name with
  | some id => exact ⟨rfl, rfl⟩
  | none =>
    cases c.prototype? name with
    | none => exact ⟨rfl, rfl⟩
    | some proto =>
      have restored := declare proto c
      dsimp only
      generalize Lowering.declare proto c = ran at restored ⊢
      obtain ⟨result, d⟩ := ran
      cases result <;> exact restored

theorem operatorFunction (name : String) (missing : LoweringError) :
    Restores (Lowering.operatorFunction name missing) := by
  apply (function? name).bind
  intro found
  cases found <;> exact fun _ => ⟨rfl, rfl⟩

theorem calleeFor (name : String) (count : Nat) : Restores (Lowering.calleeFor name count) := by
  apply (function? name).bind
  intro found
  cases found with
  | none => exact fun _ => ⟨rfl, rfl⟩
  | some id =>
    intro c
    have checked (expected : Nat) : Restores (if expected = count then Pure.pure id else
        MonadExcept.throw (.argumentCount name expected count) : Lowering Nat) := by
      split <;> exact fun _ => ⟨rfl, rfl⟩
    exact checked (c.builder.paramCount id) c

end Restores

private theorem Composed.restores {fit : Expr → Prop} {known : String → Option Nat} {names : List String}
    {x : Lowering α}
    {verdict : Except LoweringError Unit} (composed : Composed (fun _ => True) fit known names x verdict) :
    Restores x := by
  induction composed with
  | pure | throw | emit | arith | perform | slot | moveToEnd | positionAt => exact fun _ => ⟨rfl, rfl⟩
  | bind _ _ first later => exact first.bind later
  | addBlock _ _ _ later => exact fun c => later _ _
  | currentFunction _ later => exact Restores.currentFunction.bind fun func => later func trivial
  | lookup name => exact .lookup name
  | withName _ inner => exact inner.withName
  | operatorFunction => exact .operatorFunction _ _
  | calleeFor => exact .calleeFor _ _

theorem restores_expr (e : Expr) : Restores (expr e) := by
  have composed : Composed (fun _ => True) (fun _ => True) (fun _ => none) [] (expr e) (e.check _ []) :=
    .expr (fun _ _ _ _ => trivial) e [] trivial
  exact composed.restores

/-- Lowering an expression leaves the variables in scope as it found them, also if it fails. -/
theorem scope_restored (e : Expr) (c : Context) : (expr e c).2.scope = c.scope := (restores_expr e c).1

end Lowering

end Kaleidoscope
