import Kaleidoscope.Proofs.Flow.Heads
import Kaleidoscope.Proofs.Machine.Action

/-!
Functions that can stand in for others. A stand-in does the same calls and returns the same value, and may leave
out moves in between, so whole runs have the same result and output and take no more steps.
-/

namespace Kaleidoscope.Machine

open Kaleidoscope.Flow

/-- `y` keeps up with an action of a frame that it stands in for. -/
def Frame.Follows (related : Frame → Frame → Prop) (y : Frame) : Frame.Action → Prop
  | .move next => related next y ∨ ∃ next', y.Acts (.move next') ∧ related next next'
  | .jump next => ∃ next', y.Acts (.jump next') ∧ related next next'
  | .call next id callee args => ∃ next', y.Acts (.call next' id callee args) ∧
      ∀ value, related (next.setValue id value) (next'.setValue id value)
  | .ret value => y.Acts (.ret value)

/-- Calls of `g` keep up with calls of `f`. -/
structure Simulation (f g : Function) (related : Frame → Frame → Prop) : Prop where
  start : ∀ args depth, ∃ x y, enterBody f args depth = .ok (.body x) ∧ enterBody g args depth = .ok (.body y) ∧
    related x y
  depth : ∀ {x y}, related x y → y.depth = x.depth
  progress : ∀ {x y}, related x y → ∃ action, x.Acts action
  follows : ∀ {x y action}, related x y → x.Acts action → y.Follows related action

/-- `g` can stand in for `f`. -/
def Refines (f g : Function) : Prop := ∃ related, Simulation f g related

theorem Refines.trans {f g h : Function} (first : Refines f g) (second : Refines g h) : Refines f h := by
  obtain ⟨early, first⟩ := first
  obtain ⟨late, second⟩ := second
  refine ⟨fun x z => ∃ y, early x y ∧ late y z, fun args depth => ?_, ?_, ?_, ?_⟩
  · obtain ⟨x, y, starts, middle, one⟩ := first.start args depth
    obtain ⟨y', z, middle', ends, two⟩ := second.start args depth
    rw [middle] at middle'
    cases middle'
    exact ⟨x, z, starts, ends, y, one, two⟩
  · rintro x z ⟨y, one, two⟩
    exact (second.depth two).trans (first.depth one)
  · rintro x z ⟨y, one, two⟩
    exact first.progress one
  · rintro x z action ⟨y, one, two⟩ acts
    have follows := first.follows one acts
    cases action with
    | move next =>
      rcases follows with waits | ⟨next', acts', one'⟩
      · exact .inl ⟨y, waits, two⟩
      · rcases second.follows two acts' with waits | ⟨next'', acts'', two'⟩
        · exact .inl ⟨next', one', waits⟩
        · exact .inr ⟨next'', acts'', next', one', two'⟩
    | jump next =>
      obtain ⟨next', acts', one'⟩ := follows
      obtain ⟨next'', acts'', two'⟩ := second.follows two acts'
      exact ⟨next'', acts'', next', one', two'⟩
    | call next id callee args =>
      obtain ⟨next', acts', one'⟩ := follows
      obtain ⟨next'', acts'', two'⟩ := second.follows two acts'
      exact ⟨next'', acts'', fun value => ⟨_, one' value, two' value⟩⟩
    | ret value => exact second.follows two follows

/-- A function with the same head that can take another one's place in a module. -/
structure Replaces (f g : Function) : Prop where
  head : g.head = f.head
  bodies : g.isDeclaration = f.isDeclaration
  refines : f.removed = false → f.isDeclaration = false → Refines f g

/-- Every function of `m` has a replacement in `n`. -/
def ReplacesAll (m n : Module) : Prop := ∀ id, Option.Rel Replaces (m.raw? id) (n.raw? id)

variable {m n : Module} {limits : Limits}

/-- What a call comes to at once in both modules. -/
inductive Enters : Except Fault Entry → Except Fault Entry → Prop where
  | fault (fault : Fault) : Enters (.error fault) (.error fault)
  | value (value : Double) : Enters (.ok (.value value)) (.ok (.value value))
  | body {f g : Function} {related : Frame → Frame → Prop} {x y : Frame} (simulation : Simulation f g related)
      (same : related x y) : Enters (.ok (.body x)) (.ok (.body y))

variable {σ : Type} [Output σ]

private theorem enters_builtin (port : Port σ) (name : String) (args : List Double) :
    Enters (callBuiltin port name args).1 (callBuiltin port name args).1 := by
  unfold callBuiltin
  split
  · exact .fault _
  · split
    · exact .value _
    · exact .fault _

private theorem enter_replaced (limits : Limits) (replaces : ReplacesAll m n) (port : Port σ) (depth id : Nat)
    (args : List Double) :
    Enters (enter m limits port depth id args).1 (enter n limits port depth id args).1 ∧
      (enter n limits port depth id args).2 = (enter m limits port depth id args).2 := by
  have both := replaces id
  unfold enter
  split
  · exact ⟨.fault _, rfl⟩
  · generalize m.raw? id = before at both
    generalize n.raw? id = after at both
    cases both with
    | none => exact ⟨.fault _, rfl⟩
    | @some f g replaced =>
      obtain ⟨head, bodies, refines⟩ := replaced
      have name : g.name = f.name := congrArg Head.name head
      have params : g.params = f.params := congrArg Head.params head
      have removed : g.removed = f.removed := congrArg Head.removed head
      dsimp only
      rw [name, params, removed, bodies]
      by_cases gone : f.removed = true
      · rw [if_pos gone, if_pos gone]
        exact ⟨.fault _, rfl⟩
      · rw [if_neg gone, if_neg gone]
        by_cases count : f.params.length ≠ args.length
        · rw [if_pos count, if_pos count]
          exact ⟨.fault _, rfl⟩
        · rw [if_neg count, if_neg count]
          by_cases bare : f.isDeclaration = true
          · rw [if_pos bare, if_pos bare]
            exact ⟨enters_builtin port f.name args, rfl⟩
          · obtain ⟨related, simulation⟩ := refines (by simpa using gone) (by simpa using bare)
            obtain ⟨x, y, starts, starts', same⟩ := simulation.start args depth
            rw [if_neg bare, if_neg bare, starts, starts']
            exact ⟨.body simulation same, rfl⟩

/-- Callers that go on alike with any result. -/
inductive Waiting : List Caller → List Caller → Prop where
  | nil : Waiting [] []
  | cons {f g : Function} {related : Frame → Frame → Prop} {x y : Frame} {id : Nat} {xs ys : List Caller}
      (simulation : Simulation f g related)
      (same : ∀ value, related (x.setValue id value) (y.setValue id value)) (others : Waiting xs ys) :
      Waiting (⟨x, id⟩ :: xs) (⟨y, id⟩ :: ys)

/-- A run with replacements ends like the run without, and no later. -/
theorem run_replaced (replaces : ReplacesAll m n) {f g : Function} {related : Frame → Frame → Prop}
    (simulation : Simulation f g related) {x y : Frame} (same : related x y) {xs ys : List Caller}
    (waiting : Waiting xs ys) {left more : Nat} (enough : left ≤ more) (port : Port σ)
    (finishes : (run m limits left ⟨x, xs, port⟩).cutShort = false) :
    (run n limits more ⟨y, ys, port⟩).result = (run m limits left ⟨x, xs, port⟩).result ∧
      (run n limits more ⟨y, ys, port⟩).port = (run m limits left ⟨x, xs, port⟩).port ∧
      (run n limits more ⟨y, ys, port⟩).steps ≤ (run m limits left ⟨x, xs, port⟩).steps := by
  induction left generalizing f g related x y xs ys more port with
  | zero =>
    obtain ⟨_, id, rest, _, goesOn, _, _⟩ := simulation.progress same
    rw [run_zero goesOn] at finishes
    contradiction
  | succ left ih =>
    obtain ⟨action, acts⟩ := simulation.progress same
    have follows := simulation.follows same acts
    obtain ⟨id, rest, instr, goesOn, found, performs⟩ := acts
    have step : State.step m limits ⟨x, xs, port⟩ id rest = action.effect m limits ⟨x, xs, port⟩ :=
      Frame.Performs.step found performs
    -- What the replacement does if it takes a step as well.
    have both : ∀ {action : Frame.Action}, y.Acts action → ∃ id rest fewer, more = fewer + 1 ∧ left ≤ fewer ∧
        y.rest = id :: rest ∧ State.step n limits ⟨y, ys, port⟩ id rest = action.effect n limits ⟨y, ys, port⟩ := by
      intro action ⟨id, rest, instr, goesOn, found, performs⟩
      obtain ⟨fewer, rfl⟩ : ∃ fewer, more = fewer + 1 := ⟨more - 1, by omega⟩
      exact ⟨id, rest, fewer, rfl, by omega, goesOn, Frame.Performs.step found performs⟩
    cases action with
    | move next =>
      rw [run_running goesOn step] at finishes ⊢
      rcases follows with waits | ⟨next', acts', same'⟩
      · exact ih simulation waits waiting (by omega) port finishes
      · obtain ⟨_, _, fewer, rfl, enough, goesOn', step'⟩ := both acts'
        rw [run_running goesOn' step']
        exact ih simulation same' waiting enough port finishes
    | jump next =>
      obtain ⟨next', acts', same'⟩ := follows
      obtain ⟨_, _, fewer, rfl, enough, goesOn', step'⟩ := both acts'
      rw [run_running goesOn step] at finishes ⊢
      rw [run_running goesOn' step']
      exact ih simulation same' waiting enough port finishes
    | call next id' callee args =>
      obtain ⟨next', acts', same'⟩ := follows
      obtain ⟨_, _, fewer, rfl, enough, goesOn', step'⟩ := both acts'
      have depth : (next'.setValue id' .zero).depth = (next.setValue id' .zero).depth :=
        simulation.depth (same' .zero)
      have depth : next'.depth = next.depth := depth
      obtain ⟨enters, output⟩ := enter_replaced limits replaces port (next.depth + 1) callee args
      simp only [Frame.Action.effect, State.call] at step step'
      rw [depth] at step'
      generalize enter m limits port (next.depth + 1) callee args = entered at step enters output
      generalize enter n limits port (next.depth + 1) callee args = entered' at step' enters output
      obtain ⟨result, port⟩ := entered
      obtain ⟨result', port'⟩ := entered'
      cases output
      cases enters with
      | fault fault =>
        rw [run_done goesOn step, run_done goesOn' step']
        exact ⟨rfl, rfl, by simp only; omega⟩
      | value value =>
        rw [run_running goesOn step] at finishes ⊢
        rw [run_running goesOn' step']
        exact ih simulation (same' value) waiting enough port finishes
      | body inner entry =>
        rw [run_running goesOn step] at finishes ⊢
        rw [run_running goesOn' step']
        exact ih inner entry (.cons simulation same' waiting) enough port finishes
    | ret value =>
      obtain ⟨_, _, fewer, rfl, enough, goesOn', step'⟩ := both follows
      cases waiting with
      | nil =>
        rw [run_done goesOn step, run_done goesOn' step']
        exact ⟨rfl, rfl, by simp only; omega⟩
      | cons outer outerSame others =>
        rw [run_running goesOn step] at finishes ⊢
        rw [run_running goesOn' step']
        exact ih outer (outerSame value) others enough port finishes

/-- Calling a function from outside gives the same in both modules, unless the call without replacements is cut
short. -/
theorem call_replaced (replaces : ReplacesAll m n) (steps : Nat) (port : Port σ) (depth id : Nat) (args : List Double)
    (finishes : (call m limits steps port depth id args).cutShort = false) :
    (call n limits steps port depth id args).result = (call m limits steps port depth id args).result ∧
      (call n limits steps port depth id args).port = (call m limits steps port depth id args).port ∧
      (call n limits steps port depth id args).steps ≤ (call m limits steps port depth id args).steps := by
  obtain ⟨enters, output⟩ := enter_replaced limits replaces port depth id args
  unfold call at finishes ⊢
  generalize enter m limits port depth id args = entered at finishes enters output ⊢
  generalize enter n limits port depth id args = entered' at enters output ⊢
  obtain ⟨result, port⟩ := entered
  obtain ⟨result', port'⟩ := entered'
  cases output
  cases enters with
  | fault fault => exact ⟨rfl, rfl, Nat.le_refl _⟩
  | value value => exact ⟨rfl, rfl, Nat.le_refl _⟩
  | body simulation same => exact run_replaced replaces simulation same .nil (Nat.le_refl _) port finishes

end Kaleidoscope.Machine
