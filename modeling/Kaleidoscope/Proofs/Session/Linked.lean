import Kaleidoscope.Proofs.Session.Evolution

/-!
In every session, all functions with a body are well formed, and all their calls pass the right number of arguments.
-/

namespace Kaleidoscope

open Kaleidoscope.Flow

namespace Flow.Module

variable {m n : Module} {lost : List Nat}

/-- A function with a name, removed or not, and how many parameters it has. -/
def Knows (m : Module) (callee count : Nat) : Prop :=
  ∃ g, m.raw? callee = some g ∧ ¬ Numbered g.name ∧ g.params.length = count

/-- The functions of a module that have a body are in order, and so are their calls. -/
structure Linked (m : Module) : Prop where
  wellFormed : ∀ id f, m.raw? id = some f → f.removed = false → f.isDeclaration = false → f.WellFormed
  calls : ∀ id f, m.raw? id = some f → f.removed = false → ∀ callee count, f.Calls callee count →
    m.Knows callee count

/-- A function that is live after a step is an old one, a new declaration, or has just got its body. -/
theorem Step.live (step : Step m n lost) {id : Nat} {f : Function} (found : n.raw? id = some f)
    (live : f.removed = false) :
    m.raw? id = some f ∨ (∃ name params, f = .declared name params) ∨
      f.WellFormed ∧ ∀ {callee count}, f.Calls callee count → m.Callable callee count := by
  cases step with
  | declare fresh operands =>
    rw [raw?_add] at found
    split at found
    · cases found
      exact .inr (.inl ⟨_, _, rfl⟩)
    · exact .inl found
  | define before puts head wellFormed calls =>
    rcases puts.cases found with ⟨_, rfl⟩ | old
    · exact .inr (.inr ⟨wellFormed, calls⟩)
    · exact .inl old
  | giveUp before puts name params removed =>
    rcases puts.cases found with ⟨_, rfl⟩ | old
    · rw [removed] at live
      contradiction
    · exact .inl old
  | forget before numbered =>
    rcases (puts_remove before).cases found with ⟨_, rfl⟩ | old
    · contradiction
    · exact .inl old

private theorem not_calls_declared (name : String) (params : List String) (callee count : Nat) :
    ¬ (Function.declared name params).Calls callee count := by
  rintro ⟨id, member, _⟩
  simp [Function.declared, Function.liveInsts] at member

theorem Callable.knows {callee count : Nat} (callable : m.Callable callee count) : m.Knows callee count := by
  obtain ⟨name, named, found, length⟩ := callable
  obtain ⟨g, raw, _, rfl⟩ := raw?_of_find? found
  exact ⟨g, raw, named, by simpa [paramCount, raw] using length⟩

theorem Step.knows (step : Step m n lost) {callee count : Nat} (knows : m.Knows callee count) :
    n.Knows callee count := by
  obtain ⟨g, found, named, length⟩ := knows
  obtain ⟨h, found', same⟩ := step.keeps found
  exact ⟨h, found', same.name ▸ named, same.params ▸ length⟩

theorem Step.linked (step : Step m n lost) (linked : m.Linked) : n.Linked := by
  constructor
  · intro id f found live hasBody
    rcases step.live found live with old | ⟨name, params, rfl⟩ | ⟨wellFormed, _⟩
    · exact linked.wellFormed id f old live hasBody
    · contradiction
    · exact wellFormed
  · intro id f found live callee count calls
    rcases step.live found live with old | ⟨name, params, rfl⟩ | ⟨_, callable⟩
    · exact step.knows (linked.calls id f old live callee count calls)
    · exact absurd calls (not_calls_declared name params callee count)
    · exact step.knows (callable calls).knows

theorem Steps.linked (steps : Steps m n lost) (linked : m.Linked) : n.Linked := by
  induction steps with
  | refl => exact linked
  | next _ step ih => exact step.linked ih

private theorem linked_empty (name : String) : (Module.empty name).Linked :=
  ⟨fun _ _ found => by simp [raw?, empty] at found, fun _ _ found => by simp [raw?, empty] at found⟩

theorem raw?_of_function? {id : Nat} {f : Function} (found : m.function? id = some f) :
    m.raw? id = some f ∧ f.removed = false := by
  obtain ⟨raw, live⟩ := Option.filter_eq_some_iff.mp found
  exact ⟨raw, by simpa using live⟩

end Flow.Module

variable {σ : Type} {passes : List Pass} {session : Session σ} {lost : List Nat}

theorem Session.Evolved.linked (evolved : session.Evolved lost) : session.module.Linked := by
  obtain ⟨name, steps⟩ := evolved.steps
  exact steps.linked (Module.linked_empty name)

variable [Machine.Output σ]

theorem Session.Reachable.linked (reachable : session.Reachable passes lost) : session.module.Linked :=
  reachable.evolved.linked

/-- Whatever sources a session has run, its functions with a body are well formed, and each call passes as many
arguments as its function has parameters. -/
theorem function_wellFormed (reachable : session.Reachable passes lost) {id : Nat} {f : Function}
    (found : session.module.function? id = some f) (hasBody : f.isDeclaration = false) :
    f.WellFormed ∧ ∀ callee count, f.Calls callee count →
      ∃ g, session.module.raw? callee = some g ∧ g.params.length = count := by
  have linked := reachable.linked
  obtain ⟨raw, live⟩ := Module.raw?_of_function? found
  refine ⟨linked.wellFormed id f raw live hasBody, fun callee count calls => ?_⟩
  obtain ⟨g, found', _, length⟩ := linked.calls id f raw live callee count calls
  exact ⟨g, found', length⟩

/-- A session with all passes that has read a declaration and a loop around a condition. -/
def countSession : Session Machine.Sink :=
  (Session.run ⟨.new (.new "m" Pass.standard), Machine.Sink.unbounded, .standard, true, ⟨100, 10⟩⟩
    "extern putchard(c) def count(x) for i = 0, i < x in putchard(if i < 2 then i else x)").2

theorem function_wellFormed_count : ∃ f, countSession.module.function? 1 = some f ∧
    f.WellFormed ∧ ∀ callee count, f.Calls callee count →
      ∃ g, countSession.module.raw? callee = some g ∧ g.params.length = count := by
  have start : Session.Reachable Pass.standard _ [] := .new "m" Machine.Sink.unbounded true ⟨100, 10⟩
  obtain ⟨lost, reachable⟩ := start.run
    "extern putchard(c) def count(x) for i = 0, i < x in putchard(if i < 2 then i else x)"
  have bodied : (countSession.module.function? 1).map Function.isDeclaration = some false := by decide +kernel
  obtain ⟨f, found, hasBody⟩ := Option.map_eq_some_iff.mp bodied
  exact ⟨f, found, function_wellFormed reachable found hasBody⟩

end Kaleidoscope
