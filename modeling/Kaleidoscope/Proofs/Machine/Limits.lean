import Kaleidoscope.Proofs.Machine.Run

/-!
Runs under different limits. Limits only cut runs short: a run that they do not end goes the same way under wider
ones, and one that they end has written the first part of what it writes under wider ones.
-/

namespace Kaleidoscope.Machine

open Kaleidoscope.Flow

/-- The limits `wider` allow all that `limits` allow. -/
structure Limits.Within (limits wider : Limits) : Prop where
  steps : limits.steps ≤ wider.steps
  callDepth : limits.callDepth ≤ wider.callDepth

def Fault.isLimit : Fault → Bool
  | stepLimit _ => true
  | callDepth _ => true
  | _ => false

variable {σ : Type}

/-- Whether a limit has ended the run. -/
def Outcome.limited (outcome : Outcome σ) : Bool :=
  match outcome.result with
  | .ok _ => false
  | .error fault => fault.isLimit

/-- `short` ends like `long`, or a limit has ended it on the way there. -/
structure Outcome.LeadsTo (short long : Outcome σ) : Prop where
  same : short.limited = false → long.result = short.result ∧ long.port = short.port
  output : short.limited = true → short.output.toList <+: long.output.toList

theorem Outcome.LeadsTo.finished {short long : Outcome σ} (result : long.result = short.result)
    (port : long.port = short.port) : short.LeadsTo long := by
  have output : long.output = short.output := congrArg Port.output port
  exact ⟨fun _ => ⟨result, port⟩, fun _ => output ▸ List.prefix_refl _⟩

variable [Output σ]

theorem Outcome.LeadsTo.cut {short long : Outcome σ} (limited : short.limited = true)
    (grows : short.port.Grows long.port) : short.LeadsTo long := by
  refine ⟨fun finished => ?_, fun _ => grows.output⟩
  rw [limited] at finished
  contradiction

variable {limits wider : Limits}

/-- A call is refused because it is too deep, or it goes the same way under wider limits. -/
theorem enter_wider (within : limits.Within wider) (m : Module) (port : Port σ) (depth id : Nat) (args : List Double) :
    enter m limits port depth id args = (.error (.callDepth limits.callDepth), port) ∨
      enter m wider port depth id args = enter m limits port depth id args := by
  by_cases deep : limits.callDepth < depth
  · left
    rw [enter, if_pos deep]
  · right
    have room : ¬ wider.callDepth < depth := by
      have := within.callDepth
      omega
    rw [enter, enter, if_neg deep, if_neg room]

namespace State

private theorem call_wider (within : limits.Within wider) (m : Module) (state : State σ) (result callee : Nat)
    (args : List Double) :
    state.call m limits result callee args = .done (.error (.callDepth limits.callDepth)) state.port ∨
      state.call m wider result callee args = state.call m limits result callee args := by
  unfold call
  rcases enter_wider within m state.port (state.frame.depth + 1) callee args with refused | same
  · left
    rw [refused]
  · right
    rw [same]

/-- Calls are the only instructions that look at the limits. -/
theorem exec_wider (within : limits.Within wider) (m : Module) (state : State σ) (id : Nat) (instr : Instr) :
    state.exec m limits id instr = .done (.error (.callDepth limits.callDepth)) state.port ∨
      state.exec m wider id instr = state.exec m limits id instr := by
  cases instr with
  | call callee args =>
    rw [exec, exec]
    cases state.frame.readAll args with
    | error fault => exact .inr rfl
    | ok values => exact call_wider within m state id callee values
  | store value place => cases place <;> exact .inr rfl
  | _ => exact .inr rfl

private theorem step_wider (within : limits.Within wider) (m : Module) (state : State σ) (id : Nat) (rest : List Nat) :
    state.step m limits id rest = .done (.error (.callDepth limits.callDepth)) state.port ∨
      state.step m wider id rest = state.step m limits id rest := by
  unfold step
  cases state.frame.func.inst? id with
  | none => exact .inr rfl
  | some inst => exact exec_wider within m { state with frame := { state.frame with rest := rest } } id inst.instr

end State

private theorem run_wider (within : limits.Within wider) (m : Module) {left more : Nat} (enough : left ≤ more)
    (state : State σ) : (run m limits left state).LeadsTo (run m wider more state) := by
  induction left generalizing more state with
  | zero =>
    cases goesOn : state.frame.rest with
    | nil =>
      rw [run_empty goesOn, run_empty goesOn]
      exact .finished rfl rfl
    | cons id rest =>
      have cut : run m limits 0 state = ⟨.error (.stepLimit limits.steps), state.port, limits.steps⟩ := by
        rw [run, goesOn]
      rw [cut]
      exact .cut rfl (grows_run m wider more state)
  | succ left ih =>
    obtain ⟨more, rfl⟩ : ∃ fewer, more = fewer + 1 := ⟨more - 1, by omega⟩
    cases goesOn : state.frame.rest with
    | nil =>
      rw [run_empty goesOn, run_empty goesOn]
      exact .finished rfl rfl
    | cons id rest =>
      rcases state.step_wider within m id rest with refused | same
      · rw [run_done goesOn refused]
        exact .cut rfl (grows_run m wider (more + 1) state)
      · cases steps : state.step m limits id rest with
        | done result port =>
          rw [run_done goesOn steps, run_done goesOn (same.trans steps)]
          exact .finished rfl rfl
        | running next =>
          rw [run_running goesOn steps, run_running goesOn (same.trans steps)]
          exact ih (Nat.le_of_succ_le_succ enough) next

private theorem call_wider (within : limits.Within wider) (m : Module) {left more : Nat} (enough : left ≤ more)
    (port : Port σ) (depth id : Nat) (args : List Double) :
    (call m limits left port depth id args).LeadsTo (call m wider more port depth id args) := by
  rcases enter_wider within m port depth id args with refused | same
  · have cut : call m limits left port depth id args = ⟨.error (.callDepth limits.callDepth), port, 0⟩ := by
      rw [call, refused]
    rw [cut]
    exact .cut rfl (grows_call m wider more port depth id args)
  · unfold call
    rw [same]
    rcases enter m limits port depth id args with ⟨entered, port⟩
    cases entered with
    | error fault => exact .finished rfl rfl
    | ok entry =>
      cases entry with
      | value value => exact .finished rfl rfl
      | body frame => exact run_wider within m enough _

/-- Limits only cut runs short. A run that no limit ends has the same result and output under wider limits; one that a
limit ends has written the first part of what it writes under wider ones. -/
theorem runFunction_wider {σ : Type} [Output σ] {limits wider : Limits} (within : limits.Within wider) (m : Module)
    {sink : σ} (flushes : Output.Flushes sink) (id : Nat) (args : List Double) :
    ((runFunction m limits sink id args).limited = false →
      (runFunction m wider sink id args).result = (runFunction m limits sink id args).result ∧
        (runFunction m wider sink id args).output = (runFunction m limits sink id args).output ∧
        (runFunction m wider sink id args).sink = (runFunction m limits sink id args).sink) ∧
      ((runFunction m limits sink id args).limited = true →
        (runFunction m limits sink id args).output.toList <+: (runFunction m wider sink id args).output.toList) := by
  obtain ⟨same, first⟩ := call_wider within m within.steps (.new sink) 0 id args
  have limited : (runFunction m limits sink id args).limited =
      (call m limits limits.steps (.new sink) 0 id args).limited := by
    rw [Outcome.limited, Outcome.limited, result_runFunction flushes]
  rw [limited, result_runFunction flushes, result_runFunction flushes, output_runFunction, output_runFunction,
    sink_runFunction, sink_runFunction]
  refine ⟨fun finished => ?_, first⟩
  obtain ⟨result, port⟩ := same finished
  exact ⟨result, congrArg Port.output port, congrArg (fun port => (Output.flush port.sink).2) port⟩

/-- A function that writes a byte and starts over, for ever. -/
def chatter : Module where
  name := "m"
  functions := #[.declared "putchard" ["c"],
    ⟨"chatter", [], #[⟨.call 0 [.const .one], "calltmp"⟩, ⟨.jump 0, ""⟩], #[⟨"entry", [0, 1]⟩], [0], false⟩]
  nextAnonymous := 0

theorem runFunction_wider_chatter :
    (runFunction chatter ⟨5, 1⟩ Sink.unbounded 1 []).limited = true ∧
      (runFunction chatter ⟨5, 1⟩ Sink.unbounded 1 []).output = #[1, 1, 1] ∧
      (runFunction chatter ⟨5, 1⟩ Sink.unbounded 1 []).output.toList <+:
        (runFunction chatter ⟨9, 1⟩ Sink.unbounded 1 []).output.toList := by
  have limited : (runFunction chatter ⟨5, 1⟩ Sink.unbounded 1 []).limited = true := by decide +kernel
  refine ⟨limited, by decide +kernel, ?_⟩
  exact (runFunction_wider ⟨by decide, by decide⟩ chatter (Sink.flushes rfl) 1 []).2 limited

end Kaleidoscope.Machine
