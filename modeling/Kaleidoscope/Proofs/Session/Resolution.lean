import Kaleidoscope.Proofs.Session.Linked

/-!
Which calls of a session still reach their functions. A call goes to the function that had the name when the call was
lowered, and that is the function of that name ever after, unless a definition of it is given up.
-/

namespace Kaleidoscope

open Kaleidoscope.Flow

namespace Flow.Module

variable {m n : Module} {name : String} {id : Nat} {lost more : List Nat}

private theorem find?_eq_some_iff : m.find? name = some id ↔
    (∃ f, m.raw? id = some f ∧ f.removed = false ∧ f.name = name) ∧
      ∀ other < id, ∀ g, m.raw? other = some g → g.name = name → g.removed = true := by
  unfold find? raw?
  rw [Array.findIdx?_eq_some_iff_getElem]
  constructor
  · rintro ⟨inside, live, first⟩
    refine ⟨⟨m.functions[id], Array.getElem?_eq_getElem inside, by simpa using live⟩, ?_⟩
    intro other before g held same
    obtain ⟨inside', rfl⟩ := Array.getElem?_eq_some_iff.mp held
    simpa [same] using first other before
  · rintro ⟨⟨f, held, live, same⟩, first⟩
    obtain ⟨inside, rfl⟩ := Array.getElem?_eq_some_iff.mp held
    refine ⟨inside, by simp [live, same], fun other before => ?_⟩
    have gone := first other before _ (Array.getElem?_eq_getElem (Nat.lt_trans before inside))
    by_cases named : m.functions[other].name = name
    · simp [gone named]
    · simp [named]

/-- The call of a function with this number goes where its name leads. -/
def Resolves (m : Module) (callee : Nat) : Prop :=
  ∃ g, m.function? callee = some g ∧ m.find? g.name = some callee

/-- The functions with a name are found under it, but for those given up. -/
structure Traced (m : Module) (lost : List Nat) : Prop where
  known : ∀ id ∈ lost, m.raw? id ≠ none
  removed : ∀ id f, m.raw? id = some f → ¬ Numbered f.name → (f.removed = true ↔ id ∈ lost)
  found : ∀ id f, m.raw? id = some f → ¬ Numbered f.name → f.removed = false → m.find? f.name = some id

theorem Step.find? (step : Step m n lost) (found : m.find? name = some id) (named : ¬ Numbered name)
    {g : Function} (held : n.raw? id = some g) (same : g.name = name) (live : g.removed = false) :
    n.find? name = some id := by
  obtain ⟨⟨f, before, _⟩, first⟩ := find?_eq_some_iff.mp found
  refine find?_eq_some_iff.mpr ⟨⟨g, held, live, same⟩, fun other earlier h held' same' => ?_⟩
  rcases step.origin held' with ⟨f', before', kept⟩ | ⟨_, new, _⟩
  · have gone := first other earlier f' before' (kept.name ▸ same')
    exact (kept.removed (by rw [← kept.name, same']; exact named)).mpr (.inr gone)
  · have inside : id < m.functions.size := (Array.getElem?_eq_some_iff.mp before).1
    omega

theorem Step.traced (step : Step m n more) (traced : m.Traced lost) : n.Traced (more ++ lost) := by
  refine ⟨fun id member => ?_, fun id g held named => ?_, fun id g held named live => ?_⟩
  · have before : m.raw? id ≠ none := by
      rcases List.mem_append.mp member with now | earlier
      · cases step with
        | giveUp held puts name params removed =>
          rw [List.mem_singleton.mp now, held]
          exact Option.some_ne_none _
        | _ => contradiction
      · exact traced.known id earlier
    obtain ⟨f, held⟩ := Option.ne_none_iff_exists'.mp before
    obtain ⟨g, held', _⟩ := step.keeps held
    rw [held']
    exact Option.some_ne_none g
  · rcases step.origin held with ⟨f, before, same⟩ | ⟨rfl, rfl, live, _⟩
    · rw [same.name] at named
      rw [same.removed named, traced.removed id f before named, List.mem_append]
    · have unknown : m.functions.size ∉ lost := fun member => traced.known _ member m.raw?_size
      simp [live, unknown]
  · rcases step.origin held with ⟨f, before, same⟩ | ⟨_, _, _, _, numbered | found⟩
    · rw [same.name] at named ⊢
      have was : f.removed = false := by
        cases gone : f.removed with
        | false => rfl
        | true =>
          rw [(same.removed named).mpr (.inr gone)] at live
          contradiction
      exact step.find? (traced.found id f before named was) named held same.name live
    · contradiction
    · exact found

theorem Steps.traced (steps : Steps m n more) (traced : m.Traced lost) : n.Traced (more ++ lost) := by
  induction steps with
  | refl => exact traced
  | next _ step ih =>
    rw [List.append_assoc]
    exact step.traced ih

private theorem traced_empty (name : String) : (Module.empty name).Traced [] :=
  ⟨fun _ member => by contradiction, fun _ _ held => by simp [raw?, empty] at held,
    fun _ _ held => by simp [raw?, empty] at held⟩

end Flow.Module

variable {σ : Type} [Machine.Output σ] {passes : List Pass} {session : Session σ} {lost : List Nat}

theorem Session.Reachable.traced (reachable : session.Reachable passes lost) : session.module.Traced lost := by
  obtain ⟨name, steps⟩ := reachable.evolved.steps
  simpa using steps.traced (Module.traced_empty name)

/-- A call of a function that has not been removed reaches the function of its name, unless a definition of that
function was given up because its body could not be lowered. -/
theorem call_resolves_iff (reachable : session.Reachable passes lost) {id : Nat} {f : Function}
    (found : session.module.function? id = some f) {callee count : Nat} (calls : f.Calls callee count) :
    session.module.Resolves callee ↔ callee ∉ lost := by
  have traced := reachable.traced
  obtain ⟨raw, live⟩ := Module.raw?_of_function? found
  obtain ⟨g, held, named, _⟩ := reachable.linked.calls id f raw live callee count calls
  rw [← traced.removed callee g held named, Bool.not_eq_true]
  constructor
  · rintro ⟨h, found', _⟩
    obtain ⟨held', live'⟩ := Module.raw?_of_function? found'
    cases held.symm.trans held'
    exact live'
  · intro live'
    refine ⟨g, ?_, traced.found callee g held named live'⟩
    exact Option.filter_eq_some_iff.mpr ⟨held, by simp [live']⟩

/-- `g` calls `f`, which is declared; a first definition of `f` fails, a second does not. -/
def severedSource : String := "extern f(x); def g(x) f(x); def f(x) y; def f(x) x"

def severedSession : Session Machine.Sink :=
  (Session.run ⟨.new (.new "m" []), Machine.Sink.unbounded, .standard, true, ⟨100, 10⟩⟩ severedSource).2

private theorem severedSession_reachable : ∃ lost, severedSession.Reachable [] lost := by
  have start : Session.Reachable [] _ [] := .new "m" Machine.Sink.unbounded true ⟨100, 10⟩
  obtain ⟨lost, reachable⟩ := start.run severedSource
  exact ⟨_, reachable⟩

private theorem severedSession_calls : ∃ f, severedSession.module.function? 1 = some f ∧ f.Calls 0 1 := by
  have calls : (severedSession.module.function? 1).any (fun f => decide (f.Calls 0 1)) = true := by decide +kernel
  obtain ⟨f, found, called⟩ := (Option.any_eq_true _ _).mp calls
  exact ⟨f, found, of_decide_eq_true called⟩

theorem call_resolves_iff_severed :
    ∃ lost, severedSession.Reachable [] lost ∧ (severedSession.module.Resolves 0 ↔ 0 ∉ lost) := by
  obtain ⟨lost, reachable⟩ := severedSession_reachable
  obtain ⟨f, found, calls⟩ := severedSession_calls
  exact ⟨lost, reachable, call_resolves_iff reachable found calls⟩

/-- A call can be left without its function. -/
theorem not_all_calls_resolve : ¬ ∀ (passes : List Pass) (session : Session Machine.Sink) (lost : List Nat),
    session.Reachable passes lost → ∀ id f, session.module.function? id = some f →
      ∀ callee count, f.Calls callee count → session.module.Resolves callee := by
  intro all
  obtain ⟨lost, reachable⟩ := severedSession_reachable
  obtain ⟨f, found, calls⟩ := severedSession_calls
  obtain ⟨g, held, _⟩ := all [] severedSession lost reachable 1 f found 0 1 calls
  have gone : (severedSession.module.function? 0).isNone = true := by decide +kernel
  rw [held] at gone
  contradiction

end Kaleidoscope
