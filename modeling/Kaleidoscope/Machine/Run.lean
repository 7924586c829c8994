import Kaleidoscope.Double.Text
import Kaleidoscope.Machine.Frame
import Kaleidoscope.Machine.Output

/-!
Running functions of a module, one instruction at a time. A run stops with a fault when it has used up its
steps or its calls nest too deep. Functions without a body stand for two built-in ones that write to a sink.
-/

namespace Kaleidoscope.Machine

open Kaleidoscope.Flow

structure Limits where
  steps : Nat
  callDepth : Nat
  deriving DecidableEq

/-- A caller, and the instruction that waits for the result of its call. -/
structure Caller where
  frame : Frame
  result : Nat

structure State (σ : Type) where
  frame : Frame
  /-- The innermost caller first. -/
  callers : List Caller
  port : Port σ

/-- What a call comes to at once: a body to run, or a result. -/
inductive Entry where
  | body (frame : Frame)
  | value (value : Double)

inductive Progress (σ : Type) where
  | running (state : State σ)
  | done (result : Except Fault Double) (port : Port σ)

variable {σ : Type} [Output σ]

/-- The bytes a call of a built-in function writes, if there is such a function. -/
def builtin? (name : String) (args : List Double) : Option (List UInt8) :=
  match args with
  | [arg] =>
    if name = "putchard" then
      some [arg.toByte]
    else if name = "printd" then
      some (arg.text ++ "\n").toUTF8.toList
    else
      none
  | _ => none

def callBuiltin (port : Port σ) (name : String) (args : List Double) : Except Fault Entry × Port σ :=
  match builtin? name args with
  | none => (.error (.unresolvedExternal name), port)
  | some bytes =>
    match port.write bytes with
    | (none, port) => (.ok (.value .zero), port)
    | (some reason, port) => (.error (.sinkFailed reason), port)

def enterBody (func : Function) (args : List Double) (depth : Nat) : Except Fault Entry :=
  match func.entry? with
  | none => .error (.noBody func.name)
  | some entry =>
    match func.block? entry with
    | none => .error .dangling
    | some block => .ok (.body (.start func args depth entry block.insts))

/-- Calls a function with `depth` calls active below it. -/
def enter (m : Module) (limits : Limits) (port : Port σ) (depth : Nat) (id : Nat) (args : List Double) :
    Except Fault Entry × Port σ :=
  if limits.callDepth < depth then
    (.error (.callDepth limits.callDepth), port)
  else
    match m.raw? id with
    | none => (.error .dangling, port)
    | some func =>
      if func.removed then
        (.error (.removedFunction func.name), port)
      else if func.params.length ≠ args.length then
        (.error (.argumentCount func.name func.params.length args.length), port)
      else if func.isDeclaration then
        callBuiltin port func.name args
      else
        (enterBody func args depth, port)

namespace State

def fail (state : State σ) (fault : Fault) : Progress σ := .done (.error fault) state.port

/-- Goes on in the current call after `result`. -/
def continueWith (state : State σ) (result : Except Fault Frame) : Progress σ :=
  match result with
  | .ok frame => .running { state with frame := frame }
  | .error fault => state.fail fault

/-- Hands a result to the innermost caller, or ends the run. -/
def returnValue (state : State σ) (value : Double) : Progress σ :=
  match state.callers with
  | [] => .done (.ok value) state.port
  | caller :: callers => .running ⟨caller.frame.setValue caller.result value, callers, state.port⟩

def call (m : Module) (limits : Limits) (state : State σ) (result : Nat) (callee : Nat)
    (args : List Double) : Progress σ :=
  match enter m limits state.port (state.frame.depth + 1) callee args with
  | (.error fault, port) => .done (.error fault) port
  | (.ok (.value value), port) => .running ⟨state.frame.setValue result value, state.callers, port⟩
  | (.ok (.body frame), port) => .running ⟨frame, ⟨state.frame, result⟩ :: state.callers, port⟩

/-- Carries out the instruction `id`, whose block goes on with the frame's instructions. -/
def exec (m : Module) (limits : Limits) (state : State σ) (id : Nat) : Instr → Progress σ
  | .arith op lhs rhs =>
    match state.frame.read lhs, state.frame.read rhs with
    | .error fault, _ => state.fail fault
    | _, .error fault => state.fail fault
    | .ok l, .ok r => .running { state with frame := state.frame.setValue id (op.apply l r) }
  | .compare rel lhs rhs =>
    match state.frame.read lhs, state.frame.read rhs with
    | .error fault, _ => state.fail fault
    | _, .error fault => state.fail fault
    | .ok l, .ok r => .running { state with frame := state.frame.setValue id (.ofBool (rel.holds l r)) }
  | .toReal flag =>
    match state.frame.read flag with
    | .error fault => state.fail fault
    | .ok value => .running { state with frame := state.frame.setValue id (.ofBool value.truthy) }
  | .call callee args =>
    match state.frame.readAll args with
    | .error fault => state.fail fault
    | .ok values => state.call m limits id callee values
  | .slot => .running { state with frame := state.frame.writeSlot id .zero }
  | .load place =>
    match state.frame.readPlace place with
    | .error fault => state.fail fault
    | .ok value => .running { state with frame := state.frame.setValue id value }
  | .store value (.inst slot) =>
    match state.frame.read value with
    | .error fault => state.fail fault
    | .ok value => .running { state with frame := state.frame.writeSlot slot value }
  | .store _ _ => .running state
  | .jump dest => state.continueWith (state.frame.goto dest)
  | .branch flag yes no =>
    match state.frame.read flag with
    | .error fault => state.fail fault
    | .ok value => state.continueWith (state.frame.goto (if value.truthy then yes else no))
  | .ret value =>
    match state.frame.read value with
    | .error fault => state.fail fault
    | .ok value => state.returnValue value

/-- Runs the instruction `id`, after which its block goes on with `rest`. -/
def step (m : Module) (limits : Limits) (state : State σ) (id : Nat) (rest : List Nat) : Progress σ :=
  match state.frame.func.inst? id with
  | none => state.fail .dangling
  | some inst => exec m limits { state with frame := { state.frame with rest := rest } } id inst.instr

end State

/-- How a run ended, what had been written by then, and how many instructions were carried out. -/
structure Outcome (σ : Type) where
  result : Except Fault Double
  port : Port σ
  steps : Nat

namespace Outcome

def sink (outcome : Outcome σ) : σ := outcome.port.sink

def output (outcome : Outcome σ) : Array UInt8 := outcome.port.output

/-- A run ends with a flush; if that fails, so does the run. -/
def flushed (outcome : Outcome σ) : Outcome σ :=
  let (failure?, port) := outcome.port.flush
  let result :=
    match failure? with
    | none => outcome.result
    | some reason => .error (.sinkFailed reason)
  { outcome with result := result, port := port }

end Outcome

/-- Runs with `left` steps left. A block without a next instruction falls through. -/
def run (m : Module) (limits : Limits) (left : Nat) (state : State σ) : Outcome σ :=
  match state.frame.rest with
  | [] => ⟨.error state.frame.fallsThrough, state.port, limits.steps - left⟩
  | id :: rest =>
    match left with
    | 0 => ⟨.error (.stepLimit limits.steps), state.port, limits.steps⟩
    | left + 1 =>
      match state.step m limits id rest with
      | .done result port => ⟨result, port, limits.steps - left⟩
      | .running state => run m limits left state
termination_by structural left

/-- Calls a function from outside. -/
def runFunction (m : Module) (limits : Limits) (sink : σ) (id : Nat) (args : List Double) : Outcome σ :=
  match enter m limits (.new sink) 0 id args with
  | (.error fault, port) => Outcome.flushed ⟨.error fault, port, 0⟩
  | (.ok (.value value), port) => Outcome.flushed ⟨.ok value, port, 0⟩
  | (.ok (.body frame), port) => (run m limits limits.steps ⟨frame, [], port⟩).flushed

end Kaleidoscope.Machine
