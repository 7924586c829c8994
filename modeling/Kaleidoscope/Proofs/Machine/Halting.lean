import Mathlib.Logic.Function.Iterate
import Kaleidoscope.Proofs.Machine.Limits

/-!
Every run stops within its limits, whatever blocks and calls the functions have. Here a run has no bound but its own
counter, which is a machine word: it takes turns until one of them halts it.
-/

namespace Kaleidoscope

namespace Flow

def Instr.callee? : Instr → Option Nat
  | call callee _ => some callee
  | _ => none

/-- All that an instruction refers to is there. -/
structure Instr.InRange (insts blocks functions : Nat) (instr : Instr) : Prop where
  operands : ∀ operand ∈ instr.operands, ∀ id ∈ operand.inst?, id < insts
  targets : ∀ dest ∈ instr.targets, dest < blocks
  callee : ∀ callee ∈ instr.callee?, callee < functions

instance (insts blocks functions : Nat) (instr : Instr) : Decidable (instr.InRange insts blocks functions) :=
  decidable_of_iff
    ((∀ operand ∈ instr.operands, ∀ id ∈ operand.inst?, id < insts) ∧ (∀ dest ∈ instr.targets, dest < blocks) ∧
      ∀ callee ∈ instr.callee?, callee < functions)
    ⟨fun ⟨operands, targets, callee⟩ => ⟨operands, targets, callee⟩,
      fun ⟨operands, targets, callee⟩ => ⟨operands, targets, callee⟩⟩

/-- The instruction `id` is there, and so is all that it refers to. -/
def Function.Contains (f : Function) (functions id : Nat) : Prop :=
  ∃ inst ∈ f.inst? id, inst.instr.InRange f.insts.size f.blocks.size functions

instance (f : Function) (functions id : Nat) : Decidable (f.Contains functions id) :=
  inferInstanceAs (Decidable (∃ inst ∈ f.inst? id, inst.instr.InRange f.insts.size f.blocks.size functions))

/-- The numbers in the layout, in the blocks and in the instructions that stand in blocks are numbers of blocks,
instructions and functions. -/
structure Function.InRange (functions : Nat) (f : Function) : Prop where
  layout : ∀ block ∈ f.layout, block < f.blocks.size
  insts : ∀ block ∈ f.blocks, ∀ id ∈ block.insts, f.Contains functions id

instance (functions : Nat) (f : Function) : Decidable (f.InRange functions) :=
  decidable_of_iff
    ((∀ block ∈ f.layout, block < f.blocks.size) ∧ ∀ block ∈ f.blocks, ∀ id ∈ block.insts, f.Contains functions id)
    ⟨fun ⟨layout, insts⟩ => ⟨layout, insts⟩, fun ⟨layout, insts⟩ => ⟨layout, insts⟩⟩

def Module.InRange (m : Module) : Prop := ∀ f ∈ m.functions, f.InRange m.functions.size

instance (m : Module) : Decidable m.InRange :=
  inferInstanceAs (Decidable (∀ f ∈ m.functions, f.InRange m.functions.size))

theorem Module.InRange.found {m : Module} (inRange : m.InRange) {id : Nat} {f : Function} (found : m.raw? id = some f) :
    f.InRange m.functions.size :=
  inRange f (Array.mem_of_getElem? found)

theorem Function.InRange.blockInsts {functions : Nat} {f : Function} (inRange : f.InRange functions) {dest : Nat}
    {block : Block} (found : f.block? dest = some block) : ∀ id ∈ block.insts, f.Contains functions id :=
  inRange.insts block (Array.mem_of_getElem? found)

end Flow

namespace Machine

open Kaleidoscope.Flow

/-- How many instructions a run has carried out, and where it stands. -/
structure Stage (σ : Type) where
  count : UInt64
  state : State σ

inductive Turn (σ : Type) where
  | onward (stage : Stage σ)
  | halt (count : UInt64) (result : Except Fault Double) (port : Port σ)

variable {σ : Type} [Output σ]

/-- The next instruction is counted first; beyond the limit it is not carried out. -/
def Stage.turn (m : Module) (limits : Limits) (stage : Stage σ) : Turn σ :=
  match stage.state.frame.rest with
  | [] => .halt stage.count (.error stage.state.frame.fallsThrough) stage.state.port
  | id :: rest =>
    let count := stage.count + 1
    if limits.steps < count.toNat then
      .halt stage.count (.error (.stepLimit limits.steps)) stage.state.port
    else
      match stage.state.step m limits id rest with
      | .done result port => .halt count result port
      | .running next => .onward ⟨count, next⟩

def Turn.next (m : Module) (limits : Limits) : Turn σ → Turn σ
  | onward stage => stage.turn m limits
  | halt count result port => halt count result port

/-- How a call from outside begins. -/
def firstTurn (m : Module) (limits : Limits) (sink : σ) (id : Nat) (args : List Double) : Turn σ :=
  match enter m limits (.new sink) 0 id args with
  | (.error fault, port) => .halt 0 (.error fault) port
  | (.ok (.value value), port) => .halt 0 (.ok value) port
  | (.ok (.body frame), port) => .onward ⟨0, frame, [], port⟩

/-- Where a call from outside has got to after so many turns. -/
def course (m : Module) (limits : Limits) (sink : σ) (id : Nat) (args : List Double) (turns : Nat) : Turn σ :=
  (Turn.next m limits)^[turns] (firstTurn m limits sink id args)

variable {m : Module} {limits : Limits}

private theorem toNat_count (small : limits.steps < UInt64.size - 1) (count : UInt64)
    (within : count.toNat ≤ limits.steps) : (count + 1).toNat = count.toNat + 1 := by
  rw [UInt64.toNat_add, UInt64.toNat_one]
  unfold UInt64.size at small
  omega

section

variable {stage : Stage σ} {id : Nat} {rest : List Nat}

private theorem Stage.turn_empty (ends : stage.state.frame.rest = []) :
    stage.turn m limits = .halt stage.count (.error stage.state.frame.fallsThrough) stage.state.port := by
  simp only [turn, ends]

private theorem Stage.turn_beyond (goesOn : stage.state.frame.rest = id :: rest)
    (beyond : limits.steps < (stage.count + 1).toNat) :
    stage.turn m limits = .halt stage.count (.error (.stepLimit limits.steps)) stage.state.port := by
  simp only [turn, goesOn, if_pos beyond]

private theorem Stage.turn_within (goesOn : stage.state.frame.rest = id :: rest)
    (within : (stage.count + 1).toNat ≤ limits.steps) :
    stage.turn m limits =
      match stage.state.step m limits id rest with
      | .done result port => .halt (stage.count + 1) result port
      | .running next => .onward ⟨stage.count + 1, next⟩ := by
  simp only [turn, goesOn, if_neg (Nat.not_lt.mpr within)]

end

/-- The turns of a run come to an end, and it is the end of the run with the steps that are left. -/
theorem run_turns (small : limits.steps < UInt64.size - 1) {left : Nat} (stage : Stage σ)
    (counted : stage.count.toNat + left = limits.steps) :
    ∃ turns ≤ left + 1, ∃ count result port,
      (Turn.next m limits)^[turns] (.onward stage) = .halt count result port ∧
        run m limits left stage.state = ⟨result, port, count.toNat⟩ ∧ count.toNat ≤ limits.steps := by
  induction left generalizing stage with
  | zero =>
    have counts := toNat_count small stage.count (by omega)
    cases goesOn : stage.state.frame.rest with
    | nil =>
      refine ⟨1, by omega, _, _, _, Stage.turn_empty goesOn, ?_, by omega⟩
      rw [run_empty goesOn, ← counted]
      rfl
    | cons id rest =>
      refine ⟨1, by omega, _, _, _, Stage.turn_beyond goesOn (by omega), ?_, by omega⟩
      rw [run, goesOn, ← counted]
      rfl
  | succ left ih =>
    have counts := toNat_count small stage.count (by omega)
    cases goesOn : stage.state.frame.rest with
    | nil =>
      refine ⟨1, by omega, _, _, _, Stage.turn_empty goesOn, ?_, by omega⟩
      rw [run_empty goesOn, ← counted, Nat.add_sub_cancel]
    | cons id rest =>
      have within : (stage.count + 1).toNat ≤ limits.steps := by omega
      have turned := Stage.turn_within (m := m) goesOn within
      cases steps : stage.state.step m limits id rest with
      | done result port =>
        rw [steps] at turned
        refine ⟨1, by omega, _, _, _, turned, ?_, by omega⟩
        rw [run_done goesOn steps]
        congr 1
        omega
      | running next =>
        rw [steps] at turned
        obtain ⟨turns, bound, count, result, port, halts, ends, total⟩ :=
          ih ⟨stage.count + 1, next⟩ (by simp only; omega)
        refine ⟨turns + 1, by omega, count, result, port, ?_, ?_, total⟩
        · rw [Function.iterate_succ_apply]
          exact (congrArg _ turned).trans halts
        · rw [run_running goesOn steps]
          exact ends

/-- The calls that are active, the innermost first. -/
def State.frames (state : State σ) : List Frame := state.frame :: state.callers.map Caller.frame

/-- A call that refers to nothing outside of its function and its module. -/
structure Frame.InRange (m : Module) (x : Frame) : Prop where
  func : x.func.InRange m.functions.size
  values : x.values.size = x.func.insts.size
  rest : ∀ id ∈ x.rest, x.func.Contains m.functions.size id

/-- Active calls, each at the depth of the calls below it. -/
inductive Stacked (m : Module) (limits : Limits) : List Frame → Prop where
  | nil : Stacked m limits []
  | cons {x : Frame} {below : List Frame} (inRange : x.InRange m) (depth : x.depth = below.length)
      (shallow : below.length ≤ limits.callDepth) (others : Stacked m limits below) : Stacked m limits (x :: below)

/-- What is left of a run that has everything in range. -/
def Progress.InRange (m : Module) (limits : Limits) : Progress σ → Prop
  | running state => Stacked m limits state.frames
  | done result _ => result ≠ .error .dangling

section

variable {x y : Frame} {below : List Frame}

theorem Stacked.replace (stacked : Stacked m limits (x :: below)) (inRange : y.InRange m) (depth : y.depth = x.depth) :
    Stacked m limits (y :: below) := by
  cases stacked with
  | cons _ same shallow others => exact .cons inRange (depth.trans same) shallow others

theorem Frame.InRange.setValue (inRange : x.InRange m) (id : Nat) (value : Double) : (x.setValue id value).InRange m :=
  ⟨inRange.func, Array.size_setIfInBounds.trans inRange.values, inRange.rest⟩

theorem Frame.InRange.writeSlot (inRange : x.InRange m) (id : Nat) (value : Double) :
    (x.writeSlot id value).InRange m :=
  ⟨inRange.func, inRange.values, inRange.rest⟩

theorem Frame.InRange.goto (inRange : x.InRange m) {dest : Nat} (lands : x.goto dest = .ok y) :
    y.InRange m ∧ y.depth = x.depth := by
  unfold Frame.goto at lands
  split at lands
  · next block found =>
    cases lands
    exact ⟨⟨inRange.func, inRange.values, inRange.func.blockInsts found⟩, rfl⟩
  · contradiction

/-- Nothing dangles in an instruction that has everything in range. -/
theorem Frame.InRange.raises (inRange : x.InRange m) {instr : Instr} {functions : Nat}
    (held : instr.InRange x.func.insts.size x.func.blocks.size functions) {fault : Fault}
    (raises : x.Raises instr fault) : fault ≠ .dangling := by
  cases raises with
  | @operand operand _ used fails =>
    cases operand with
    | const value => contradiction
    | param index => contradiction
    | inst id =>
      have inside : id < x.values.size := inRange.values ▸ held.operands _ used id rfl
      simp [Frame.read, inside] at fails
    | undef =>
      cases fails
      exact Fault.noConfusion
  | @target dest _ named fails =>
    have inside : dest < x.func.blocks.size := held.targets dest named
    have found : x.func.block? dest = some x.func.blocks[dest] := Array.getElem?_eq_getElem inside
    simp [Frame.goto, found] at fails

/-- What a call that has everything in range comes to. -/
def EntersInRange (m : Module) (depth : Nat) : Except Fault Entry → Prop
  | .error fault => fault ≠ .dangling
  | .ok (.value _) => True
  | .ok (.body y) => y.InRange m ∧ y.depth = depth

private theorem enterBody_inRange {f : Function} (inRange : f.InRange m.functions.size) (args : List Double)
    (depth : Nat) : EntersInRange m depth (enterBody f args depth) := by
  unfold enterBody
  cases first : f.entry? with
  | none => exact Fault.noConfusion
  | some entry =>
    have inside : entry < f.blocks.size := inRange.layout entry (List.mem_of_mem_head? first)
    have found : f.block? entry = some f.blocks[entry] := Array.getElem?_eq_getElem inside
    simp only [found]
    exact ⟨⟨inRange, Array.size_replicate, inRange.blockInsts found⟩, rfl⟩

private theorem enter_inRange (inRange : m.InRange) (limits : Limits) {id : Nat} (known : id < m.functions.size)
    (port : Port σ)
    (depth : Nat) (args : List Double) : EntersInRange m depth (enter m limits port depth id args).1 := by
  have arrives := enter_arrives m limits port depth id args
  generalize enter m limits port depth id args = entered at arrives ⊢
  cases arrives with
  | unknown missing =>
    have found : m.raw? id = some m.functions[id] := Array.getElem?_eq_getElem known
    cases missing.symm.trans found
  | builtin => trivial
  | body found => exact enterBody_inRange (inRange.found found) args depth
  | _ => exact Fault.noConfusion

private theorem enter_shallow {port after : Port σ} {depth id : Nat} {args : List Double} {entry : Entry}
    (enters : enter m limits port depth id args = (.ok entry, after)) : depth ≤ limits.callDepth := by
  by_contra deep
  rw [enter, if_pos (Nat.lt_of_not_le deep)] at enters
  cases enters

end

/-- What one instruction keeps. -/
theorem State.Does.inRange (inRange : m.InRange) {state : State σ} {id : Nat} {instr : Instr} {progress : Progress σ}
    (held : instr.InRange state.frame.func.insts.size state.frame.func.blocks.size m.functions.size)
    (stacked : Stacked m limits state.frames) (does : state.Does m limits id instr progress) :
    progress.InRange m limits := by
  obtain ⟨frame, callers, port⟩ := state
  have here : frame.InRange m := by
    cases stacked
    assumption
  cases does with
  | fault raises =>
    intro dangles
    cases dangles
    exact here.raises held raises rfl
  | compute value => exact stacked.replace (here.setValue id value) rfl
  | write slot value => exact stacked.replace (here.writeSlot slot value) rfl
  | skip => exact stacked
  | jump named lands =>
    obtain ⟨landed, depth⟩ := here.goto lands
    exact stacked.replace landed depth
  | @call callee args values calls reads =>
    have known : callee < m.functions.size := held.callee callee (by rw [calls]; rfl)
    have entered := enter_inRange inRange limits known port (frame.depth + 1) values
    unfold State.call
    dsimp only
    split
    · next refused =>
      rw [refused] at entered
      intro dangles
      cases dangles
      exact entered rfl
    · exact stacked.replace (here.setValue id _) rfl
    · next enters =>
      have shallow := enter_shallow enters
      rw [enters] at entered
      obtain ⟨fits, depth⟩ := entered
      have below : frame.depth = (callers.map Caller.frame).length := by
        cases stacked
        assumption
      refine .cons fits ?_ ?_ stacked
      · rw [depth, below]
        rfl
      · simp only [List.map_cons, List.length_cons]
        omega
  | ret value =>
    unfold returnValue
    dsimp only
    split
    · intro dangles
      cases dangles
    · next caller callers =>
      cases stacked with
      | cons _ _ _ others =>
        cases others with
        | cons waiting depth shallow others => exact .cons (waiting.setValue caller.result value) depth shallow others

private theorem State.step_inRange (inRange : m.InRange) {state : State σ} (stacked : Stacked m limits state.frames)
    {id : Nat} {rest : List Nat} (goesOn : state.frame.rest = id :: rest) :
    (state.step m limits id rest).InRange m limits := by
  obtain ⟨frame, callers, port⟩ := state
  have here : frame.InRange m := by
    cases stacked
    assumption
  have held := here.rest
  rw [goesOn] at held
  obtain ⟨⟨inst, found, fits⟩, later⟩ := List.forall_mem_cons.mp held
  have advanced : Stacked m limits (State.frames ⟨{ frame with rest := rest }, callers, port⟩) :=
    stacked.replace ⟨here.func, here.values, later⟩ rfl
  rw [State.step, show frame.func.inst? id = some inst from found]
  exact (exec_does m limits _ id inst.instr).inRange inRange fits advanced

/-- What holds after each turn of a call from outside. -/
def Turn.Sound (m : Module) (limits : Limits) (turns : Nat) : Turn σ → Prop
  | onward stage => stage.count.toNat = turns ∧ turns ≤ limits.steps ∧ Stacked m limits stage.state.frames
  | halt _ result _ => result ≠ .error .dangling

private theorem firstTurn_sound (inRange : m.InRange) (sink : σ) {id : Nat} (known : id < m.functions.size)
    (args : List Double) : (firstTurn m limits sink id args).Sound m limits 0 := by
  have entered := enter_inRange inRange limits known (.new sink) 0 args
  unfold firstTurn
  split
  · next refused =>
    rw [refused] at entered
    intro dangles
    cases dangles
    exact entered rfl
  · intro dangles
    cases dangles
  · next enters =>
    rw [enters] at entered
    exact ⟨rfl, Nat.zero_le _, .cons entered.1 entered.2 (Nat.zero_le _) .nil⟩

theorem Turn.Sound.next (small : limits.steps < UInt64.size - 1) (inRange : m.InRange) {turns : Nat} {turn : Turn σ}
    (sound : turn.Sound m limits turns) : (turn.next m limits).Sound m limits (turns + 1) := by
  cases turn with
  | halt count result port => exact sound
  | onward stage =>
    obtain ⟨counted, within, stacked⟩ := sound
    have counts := toNat_count small stage.count (by omega)
    rw [Turn.next]
    cases goesOn : stage.state.frame.rest with
    | nil =>
      rw [Stage.turn_empty goesOn]
      intro dangles
      cases dangles
    | cons id rest =>
      by_cases beyond : limits.steps < (stage.count + 1).toNat
      · rw [Stage.turn_beyond goesOn beyond]
        intro dangles
        cases dangles
      · have stepped := State.step_inRange inRange stacked goesOn
        rw [Stage.turn_within goesOn (Nat.le_of_not_lt beyond)]
        split
        · next steps => rwa [steps] at stepped
        · next steps =>
          rw [steps] at stepped
          exact ⟨by simp only; omega, by omega, stepped⟩

private theorem course_sound (small : limits.steps < UInt64.size - 1) (inRange : m.InRange) (sink : σ) {id : Nat}
    (known : id < m.functions.size) (args : List Double) (turns : Nat) :
    (course m limits sink id args turns).Sound m limits turns := by
  induction turns with
  | zero => exact firstTurn_sound inRange sink known args
  | succ turns ih =>
    rw [course, Function.iterate_succ_apply']
    exact ih.next small inRange

/-- The course of a call from outside ends, and it ends as the call does. -/
theorem course_halts (small : limits.steps < UInt64.size - 1) (sink : σ) (id : Nat) (args : List Double) :
    ∃ turns ≤ limits.steps + 1, ∃ count result after,
      course m limits sink id args turns = .halt count result after ∧
        runFunction m limits sink id args = Outcome.flushed ⟨result, after, count.toNat⟩ ∧
        count.toNat ≤ limits.steps := by
  unfold course firstTurn runFunction
  rcases enter m limits (.new sink) 0 id args with ⟨entered, after⟩
  cases entered with
  | error fault => exact ⟨0, Nat.zero_le _, 0, .error fault, after, rfl, rfl, Nat.zero_le _⟩
  | ok entry =>
    cases entry with
    | value value => exact ⟨0, Nat.zero_le _, 0, .ok value, after, rfl, rfl, Nat.zero_le _⟩
    | body frame =>
      obtain ⟨turns, bound, count, result, written, halts, ends, total⟩ :=
        run_turns (m := m) small ⟨0, frame, [], after⟩ (Nat.zero_add _)
      exact ⟨turns, bound, count, result, written, halts, congrArg Outcome.flushed ends, total⟩

/-- Every call from outside stops within its limits, if all numbers in the module are in range: its turns come to an
end, which is that of the run; no more instructions are carried out than the limit allows, all calls counted; the
counter never overflows; and no more calls are active at once than the limit and the first one, also while a built-in
function is called. -/
theorem runFunction_halts {σ : Type} [Output σ] {m : Module} (inRange : m.InRange) {limits : Limits}
    (small : limits.steps < UInt64.size - 1) (sink : σ) {id : Nat} (known : id < m.functions.size)
    (args : List Double) :
    (∃ turns ≤ limits.steps + 1, ∃ count result after,
      course m limits sink id args turns = .halt count result after ∧ result ≠ .error .dangling ∧
        runFunction m limits sink id args = Outcome.flushed ⟨result, after, count.toNat⟩ ∧
        count.toNat ≤ limits.steps) ∧
      ∀ turns stage, course m limits sink id args turns = .onward stage →
        stage.count.toNat = turns ∧ turns ≤ limits.steps ∧
          stage.state.frames.length ≤ limits.callDepth + 1 ∧
          ∀ callee values entry after,
            enter m limits stage.state.port (stage.state.frame.depth + 1) callee values = (.ok entry, after) →
              stage.state.frames.length + 1 ≤ limits.callDepth + 1 := by
  have sound := course_sound small inRange sink known args
  refine ⟨?_, fun turns stage reached => ?_⟩
  · obtain ⟨turns, bound, count, result, after, halts, ends, total⟩ := course_halts (m := m) small sink id args
    have proper := sound turns
    rw [halts] at proper
    exact ⟨turns, bound, count, result, after, halts, proper, ends, total⟩
  · have held := sound turns
    rw [reached] at held
    obtain ⟨counted, within, stacked⟩ := held
    cases stacked with
    | cons _ depth shallow _ =>
      refine ⟨counted, within, Nat.succ_le_succ shallow, fun callee values entry after enters => ?_⟩
      have room := enter_shallow enters
      rw [depth] at room
      exact Nat.succ_le_succ room

theorem runFunction_halts_chatter :
    chatter.InRange ∧ ∃ turns ≤ 6, ∃ count result after,
      course chatter ⟨5, 1⟩ Sink.unbounded 1 [] turns = .halt count result after ∧ result ≠ .error .dangling ∧
        runFunction chatter ⟨5, 1⟩ Sink.unbounded 1 [] = Outcome.flushed ⟨result, after, count.toNat⟩ ∧
        count.toNat ≤ 5 := by
  have inRange : chatter.InRange := by decide
  have small : Limits.steps ⟨5, 1⟩ < UInt64.size - 1 := by decide
  have known : 1 < chatter.functions.size := by decide
  exact ⟨inRange, (runFunction_halts inRange small Sink.unbounded known []).1⟩

end Machine

end Kaleidoscope
