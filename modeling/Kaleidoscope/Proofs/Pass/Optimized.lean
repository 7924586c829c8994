import Kaleidoscope.Proofs.Lowering.Reachable
import Kaleidoscope.Proofs.Pass.DeadCode
import Kaleidoscope.Proofs.Pass.FoldConstants
import Kaleidoscope.Proofs.Pass.ForwardStores

/-!
Modules built from the same forms with and without passes. Their functions correspond one by one, so runs give the
same results and output, and the optimized ones take no more steps.
-/

namespace Kaleidoscope

open Kaleidoscope.Flow Kaleidoscope.Machine

namespace Flow

variable {f : Function}

private theorem Pass.improves_apply (pass : Pass) (wellFormed : f.WellFormed) : f.Improves (pass.apply f).1 := by
  cases pass with
  | forwardStores => exact wellFormed.forwardStores
  | foldConstants => exact wellFormed.foldConstants
  | removeDeadCode => exact wellFormed.removeDeadCode

/-- Passes in any order, any number of times. -/
theorem Pass.improves_runAll (passes : List Pass) (wellFormed : f.WellFormed) : f.Improves (runAll passes f).1 := by
  induction passes generalizing f with
  | nil => exact .refl wellFormed
  | cons pass passes ih =>
    have improves := pass.improves_apply wellFormed
    exact improves.trans (ih improves.wellFormed)

end Flow

namespace Form

/-- The context after lowering forms one after the other, whether they fail or not. -/
def lowerAll (forms : List Form) (c : Context) : Context := forms.foldl (fun c form => (form.lowering c).2) c

/-- A module built from forms, with passes over each finished function. -/
def build (name : String) (passes : List Pass) (forms : List Form) : Module :=
  (lowerAll forms (.new (.new name passes))).builder.module

end Form

namespace Machine

variable {m n : Module} {f g : Function}

theorem Replaces.declared (name : String) (params : List String) :
    Replaces (.declared name params) (.declared name params) :=
  ⟨rfl, rfl, fun _ body => by contradiction⟩

theorem Replaces.removed (gone : f.removed = true) : Replaces f f :=
  ⟨rfl, rfl, fun live => by simp [gone] at live⟩

private theorem Replaces.optimized (wellFormed : f.WellFormed) (passes : List Pass) :
    Replaces f (Pass.runAll passes f).1 := by
  have kept := Pass.kept_runAll passes f
  refine ⟨kept.head, ?_, fun _ _ => (Pass.improves_runAll passes wellFormed).refines⟩
  unfold Function.isDeclaration
  rw [kept.layout]

theorem ReplacesAll.heads (replaces : ReplacesAll m n) : m.heads = n.heads := by
  apply Array.ext_getElem?
  intro id
  have both := replaces id
  simp only [Module.heads, Array.getElem?_map]
  unfold Module.raw? at both
  generalize m.functions[id]? = before at both ⊢
  generalize n.functions[id]? = after at both ⊢
  cases both with
  | none => rfl
  | some replaced => exact congrArg some replaced.head.symm

theorem ReplacesAll.hasBody (replaces : ReplacesAll m n) (id : Nat) : m.hasBody id = n.hasBody id := by
  have both := replaces id
  unfold Module.hasBody
  generalize m.raw? id = before at both ⊢
  generalize n.raw? id = after at both ⊢
  cases both with
  | none => rfl
  | some replaced => exact congrArg not replaced.bodies.symm

end Machine

namespace Context

/-- A context without passes, and one that has come from the same forms with passes. -/
structure Counterparts (c d : Context) : Prop where
  plain : c.Sound
  optimized : d.Sound
  passes : c.builder.passes = []
  alike : c.Alike d
  replaces : ReplacesAll c.builder.module d.builder.module

variable {c d : Context}

private theorem replacesAll_declaring (protos : List Prototype) (alike : c.Alike d)
    (replaces : ReplacesAll c.builder.module d.builder.module) :
    ReplacesAll (c.declaring protos).builder.module (d.declaring protos).builder.module := by
  induction protos generalizing c d with
  | nil => exact replaces
  | cons proto protos ih =>
    refine ih (alike.declare proto) fun id => ?_
    have size : c.builder.module.functions.size = d.builder.module.functions.size := alike.size
    simp only [declare, Builder.declare, Module.raw?_add, Module.nameFor, alike.nextAnonymous, size]
    split
    · exact .some (.declared _ _)
    · exact replaces id

private theorem Counterparts.of_replaces (plain : c.Sound) (optimized : d.Sound) (passes : c.builder.passes = [])
    (replaces : ReplacesAll c.builder.module d.builder.module) (scope : c.scope = d.scope)
    (prototypes : c.prototypes = d.prototypes)
    (nextAnonymous : c.builder.module.nextAnonymous = d.builder.module.nextAnonymous) : c.Counterparts d :=
  ⟨plain, optimized, passes, ⟨scope, prototypes, replaces.heads, replaces.hasBody, nextAnonymous⟩, replaces⟩

theorem Counterparts.declaration (same : c.Counterparts d) (proto : Prototype) :
    (Lowering.declaration proto c).2.Counterparts (Lowering.declaration proto d).2 := by
  have plain := same.plain.declaration proto
  have optimized := same.optimized.declaration proto
  rcases Lowering.declaration_runs c proto with ⟨reason, runs⟩ | ⟨id, protos, _, runs⟩
  · rw [runs c (.refl c), runs d same.alike]
    exact same
  · rw [runs c (.refl c)] at plain ⊢
    rw [runs d same.alike] at optimized ⊢
    have alike := (same.alike.declaring protos).registering proto
    refine ⟨plain, optimized, ?_, alike, ?_⟩
    · rw [registering_builder, passes_declaring]
      exact same.passes
    · rw [registering_builder, registering_builder]
      exact replacesAll_declaring protos same.alike same.replaces

theorem Counterparts.attempt (same : c.Counterparts d) {proto : Prototype} {body : Expr}
    (attempt : Lowering.Attempt c proto body) :
    ReplacesAll (Lowering.definition proto body c).2.builder.module
      (Lowering.definition proto body d).2.builder.module := by
  have declared := replacesAll_declaring (attempt.before ++ attempt.meanwhile) same.alike same.replaces
  intro other
  cases result : attempt.result with
  | ok value =>
    rw [attempt.raw?_finished (.refl c) same.plain.pristine result,
      attempt.raw?_finished same.alike same.optimized.pristine result, same.passes]
    split
    · exact .some (.optimized (attempt.wellFormed result).1 _)
    · exact declared other
  | error reason =>
    rw [attempt.raw?_failed (.refl c) same.plain.pristine result,
      attempt.raw?_failed same.alike same.optimized.pristine result]
    split
    · exact .some (.removed rfl)
    · exact declared other

theorem Counterparts.definition (same : c.Counterparts d) (proto : Prototype) (body : Expr) :
    (Lowering.definition proto body c).2.Counterparts (Lowering.definition proto body d).2 := by
  rcases Lowering.definition_runs same.plain.registered same.plain.pristine proto body with
    ⟨reason, _, runs⟩ | ⟨⟨attempt⟩⟩
  · rw [runs c (.refl c), runs d same.alike]
    exact same
  · have runs := attempt.runs c (.refl c) same.plain.pristine
    have runs' := attempt.runs d same.alike same.optimized.pristine
    have begun := ((same.alike.declaring (attempt.before ++ attempt.meanwhile)).registering proto).withScope
      attempt.scope.names
    refine .of_replaces (same.plain.definition proto body) (same.optimized.definition proto body) ?_
      (same.attempt attempt) ?_ ?_ ?_
    · exact (attempt.passes_finished (.refl c) same.plain.pristine).trans same.passes
    all_goals
      rw [runs, runs']
      cases attempt.result
    · exact begun.scope
    · exact begun.scope
    · exact begun.prototypes
    · exact begun.prototypes
    · exact begun.nextAnonymous
    · exact begun.nextAnonymous

private theorem Counterparts.lowerAll (same : c.Counterparts d) (forms : List Form) :
    (Form.lowerAll forms c).Counterparts (Form.lowerAll forms d) := by
  induction forms generalizing c d with
  | nil => exact same
  | cons form forms ih =>
    apply ih
    cases form with
    | declaration proto => exact same.declaration proto
    | definition proto body => exact same.definition proto body

theorem Counterparts.new (name : String) (passes : List Pass) :
    (Context.new (.new name [])).Counterparts (.new (.new name passes)) :=
  .of_replaces (.new _ rfl) (.new _ rfl) rfl (fun _ => .none) rfl rfl rfl

end Context

/-- Optimizing preserves behaviour: unless it is cut short, a run gives the same result and writes the same output
after any passes, and takes no more steps. -/
theorem run_optimized {σ : Type} [Output σ] (name : String) (passes : List Pass) (forms : List Form) (limits : Limits)
    {sink : σ} (flushes : Output.Flushes sink) (id : Nat) (args : List Double)
    (finishes : (runFunction (Form.build name [] forms) limits sink id args).cutShort = false) :
    (runFunction (Form.build name passes forms) limits sink id args).result =
        (runFunction (Form.build name [] forms) limits sink id args).result ∧
      (runFunction (Form.build name passes forms) limits sink id args).output =
        (runFunction (Form.build name [] forms) limits sink id args).output ∧
      (runFunction (Form.build name passes forms) limits sink id args).sink =
        (runFunction (Form.build name [] forms) limits sink id args).sink ∧
      (runFunction (Form.build name passes forms) limits sink id args).steps ≤
        (runFunction (Form.build name [] forms) limits sink id args).steps := by
  rw [Outcome.cutShort, result_runFunction flushes] at finishes
  obtain ⟨result, port, steps⟩ := call_replaced ((Context.Counterparts.new name passes).lowerAll forms).replaces
    limits.steps (.new sink) 0 id args finishes
  simp only [result_runFunction flushes, output_runFunction, sink_runFunction, steps_runFunction]
  exact ⟨result, congrArg Port.output port, congrArg (fun port => (Output.flush port.sink).2) port, steps⟩

/-- `extern putchard(c)` and `def count(x) for i = 0, i < x in var c = i + x in putchard(c)`. -/
def countForms : List Form :=
  [.declaration (.function "putchard" ["c"]),
    .definition (.function "count" ["x"]) (.loop "i" (.number .zero) (.binary '<' (.var "i") (.var "x")) none
      (.bind [("c", .binary '+' (.var "i") (.var "x"))] (.call "putchard" [.var "c"])))]

theorem run_optimized_count :
    (runFunction (Form.build "m" Pass.standard countForms) ⟨100, 10⟩ Sink.unbounded 1 [.one]).result =
        (runFunction (Form.build "m" [] countForms) ⟨100, 10⟩ Sink.unbounded 1 [.one]).result ∧
      (runFunction (Form.build "m" Pass.standard countForms) ⟨100, 10⟩ Sink.unbounded 1 [.one]).output =
        (runFunction (Form.build "m" [] countForms) ⟨100, 10⟩ Sink.unbounded 1 [.one]).output ∧
      (runFunction (Form.build "m" Pass.standard countForms) ⟨100, 10⟩ Sink.unbounded 1 [.one]).sink =
        (runFunction (Form.build "m" [] countForms) ⟨100, 10⟩ Sink.unbounded 1 [.one]).sink ∧
      (runFunction (Form.build "m" Pass.standard countForms) ⟨100, 10⟩ Sink.unbounded 1 [.one]).steps ≤
        (runFunction (Form.build "m" [] countForms) ⟨100, 10⟩ Sink.unbounded 1 [.one]).steps :=
  run_optimized "m" Pass.standard countForms ⟨100, 10⟩ (Sink.flushes rfl) 1 [.one] (by decide +kernel)

end Kaleidoscope
