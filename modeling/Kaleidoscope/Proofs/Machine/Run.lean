import Kaleidoscope.Machine.Run
import Kaleidoscope.Proofs.Machine.Output

/-!
Runs step by step: more steps than needed change nothing, a call in the middle of a run goes as it would on its own,
and what has been written stays written.
-/

namespace Kaleidoscope.Machine

open Kaleidoscope.Flow

theorem Frame.read_rest (frame : Frame) (rest : List Nat) (operand : Operand) :
    { frame with rest := rest }.read operand = frame.read operand := by
  cases operand <;> rfl

theorem Frame.readAll_rest (frame : Frame) (rest : List Nat) (operands : List Operand) :
    { frame with rest := rest }.readAll operands = frame.readAll operands := by
  induction operands with
  | nil => rfl
  | cons operand operands ih => simp only [readAll, read_rest, ih]

variable {σ : Type} {caller : Caller} {outer : List Caller}

/-- Whether a run used up its steps. -/
def Outcome.cutShort (outcome : Outcome σ) : Bool :=
  match outcome.result with
  | .error (.stepLimit _) => true
  | _ => false

theorem Outcome.cutShort_iff {outcome : Outcome σ} :
    outcome.cutShort = true ↔ ∃ limit, outcome.result = .error (.stepLimit limit) := by
  unfold cutShort
  split
  · next limit same => simp [same]
  · next other =>
    simp only [Bool.false_eq_true, false_iff, not_exists]
    exact other

/-- The same state with further callers below. -/
def State.above (state : State σ) (outer : List Caller) : State σ :=
  { state with callers := state.callers ++ outer }

/-- The same progress with further callers below: a value goes to the first of them. -/
def Progress.above (progress : Progress σ) (caller : Caller) (outer : List Caller) : Progress σ :=
  match progress with
  | .running state => .running (state.above (caller :: outer))
  | .done (.error fault) port => .done (.error fault) port
  | .done (.ok value) port => .running ⟨caller.frame.setValue caller.result value, outer, port⟩

private theorem State.continueWith_above (state : State σ) (result : Except Fault Frame) :
    (state.above (caller :: outer)).continueWith result = (state.continueWith result).above caller outer := by
  cases result <;> rfl

private theorem State.returnValue_above (state : State σ) (value : Double) :
    (state.above (caller :: outer)).returnValue value = (state.returnValue value).above caller outer := by
  obtain ⟨frame, callers, port⟩ := state
  cases callers <;> rfl

namespace Outcome

variable [Output σ] (outcome : Outcome σ)

theorem result_flushed :
    outcome.flushed.result =
      match (Output.flush outcome.sink).1 with
      | none => outcome.result
      | some reason => .error (.sinkFailed reason) :=
  rfl

theorem sink_flushed : outcome.flushed.sink = (Output.flush outcome.sink).2 := rfl

theorem output_flushed : outcome.flushed.output = outcome.output := rfl

private theorem steps_flushed : outcome.flushed.steps = outcome.steps := rfl

end Outcome

variable [Output σ]

/-- A call from outside, before the last flush. -/
def call (m : Module) (limits : Limits) (steps : Nat) (port : Port σ) (depth id : Nat) (args : List Double) :
    Outcome σ :=
  match enter m limits port depth id args with
  | (.error fault, port) => ⟨.error fault, port, 0⟩
  | (.ok (.value value), port) => ⟨.ok value, port, 0⟩
  | (.ok (.body frame), port) => run m limits steps ⟨frame, [], port⟩

theorem runFunction_eq_call (m : Module) (limits : Limits) (sink : σ) (id : Nat) (args : List Double) :
    runFunction m limits sink id args = (call m limits limits.steps (.new sink) 0 id args).flushed := by
  unfold runFunction call
  rcases enter m limits (.new sink) 0 id args with ⟨result, port⟩
  cases result with
  | error fault => rfl
  | ok entry => cases entry <;> rfl

variable {m : Module} {limits : Limits} {state next : State σ} {left more : Nat}

/-- A run that has not begun its next instruction when no step is left is cut short. -/
theorem run_zero {id : Nat} {rest : List Nat} (goesOn : state.frame.rest = id :: rest) :
    (run m limits 0 state).cutShort = true := by
  rw [run, goesOn]
  rfl

theorem run_running {id : Nat} {rest : List Nat} (goesOn : state.frame.rest = id :: rest)
    (steps : state.step m limits id rest = .running next) : run m limits (left + 1) state = run m limits left next := by
  rw [run, goesOn]
  simp only [steps]

theorem run_done {id : Nat} {rest : List Nat} {result : Except Fault Double} {port : Port σ}
    (goesOn : state.frame.rest = id :: rest) (steps : state.step m limits id rest = .done result port) :
    run m limits (left + 1) state = ⟨result, port, limits.steps - left⟩ := by
  rw [run, goesOn]
  simp only [steps]

theorem run_empty (ends : state.frame.rest = []) :
    run m limits left state = ⟨.error state.frame.fallsThrough, state.port, limits.steps - left⟩ := by
  rw [run.eq_def, ends]

theorem State.step_eq {id : Nat} {instr : Instr} (found : state.frame.func.instr? id = some instr)
    (rest : List Nat) :
    state.step m limits id rest =
      { state with frame := { state.frame with rest := rest } }.exec m limits id instr := by
  obtain ⟨inst, has, same⟩ := Option.map_eq_some_iff.mp found
  rw [State.step, has, ← same]

/-- A run that ends of itself ends in the same way if it may take more steps. -/
theorem run_more (enough : left ≤ more) (finished : (run m limits left state).cutShort = false) :
    (run m limits more state).result = (run m limits left state).result ∧
      (run m limits more state).port = (run m limits left state).port := by
  induction left generalizing more state with
  | zero =>
    cases ends : state.frame.rest with
    | nil => simp only [run_empty ends, and_self]
    | cons id rest =>
      rw [run_zero ends] at finished
      contradiction
  | succ left ih =>
    obtain ⟨more, rfl⟩ : ∃ further, more = further + 1 := ⟨more - 1, by omega⟩
    cases goesOn : state.frame.rest with
    | nil => simp only [run_empty goesOn, and_self]
    | cons id rest =>
      cases steps : state.step m limits id rest with
      | done result port => simp only [run_done goesOn steps, and_self]
      | running next =>
        rw [run_running goesOn steps] at finished ⊢
        rw [run_running goesOn steps]
        exact ih (Nat.le_of_succ_le_succ enough) finished

private theorem State.call_above (state : State σ) (result callee : Nat) (args : List Double) :
    (state.above (caller :: outer)).call m limits result callee args =
      (state.call m limits result callee args).above caller outer := by
  have frame : (state.above (caller :: outer)).frame = state.frame := rfl
  have port : (state.above (caller :: outer)).port = state.port := rfl
  simp only [State.call, frame, port]
  rcases enter m limits state.port (state.frame.depth + 1) callee args with ⟨entered, port⟩
  cases entered with
  | error fault => rfl
  | ok entry => cases entry <;> rfl

private theorem State.exec_above (state : State σ) (id : Nat) (instr : Instr) :
    (state.above (caller :: outer)).exec m limits id instr =
      (state.exec m limits id instr).above caller outer := by
  have frame : (state.above (caller :: outer)).frame = state.frame := rfl
  cases instr with
  | arith op lhs rhs =>
    simp only [exec, frame]
    cases state.frame.read lhs <;> cases state.frame.read rhs <;> rfl
  | compare rel lhs rhs =>
    simp only [exec, frame]
    cases state.frame.read lhs <;> cases state.frame.read rhs <;> rfl
  | toReal flag =>
    simp only [exec, frame]
    cases state.frame.read flag <;> rfl
  | call callee args =>
    simp only [exec, frame]
    cases state.frame.readAll args with
    | error fault => rfl
    | ok values => exact state.call_above id callee values
  | slot => rfl
  | load place =>
    simp only [exec, frame]
    cases state.frame.readPlace place <;> rfl
  | store value place =>
    cases place with
    | inst slot =>
      simp only [exec, frame]
      cases state.frame.read value <;> rfl
    | _ => rfl
  | jump dest => exact state.continueWith_above (state.frame.goto dest)
  | branch flag yes no =>
    simp only [exec, frame]
    cases state.frame.read flag with
    | error fault => rfl
    | ok value => exact state.continueWith_above _
  | ret value =>
    simp only [exec, frame]
    cases state.frame.read value with
    | error fault => rfl
    | ok value => exact state.returnValue_above value

private theorem State.step_above (state : State σ) (id : Nat) (rest : List Nat) :
    (state.above (caller :: outer)).step m limits id rest =
      (state.step m limits id rest).above caller outer := by
  have frame : (state.above (caller :: outer)).frame = state.frame := rfl
  simp only [State.step, frame]
  cases state.frame.func.inst? id with
  | none => rfl
  | some inst => exact State.exec_above { state with frame := { state.frame with rest := rest } } id inst.instr

/-- A call goes as it would on its own; its value goes to the caller, and a fault ends the whole run. -/
theorem run_above (m : Module) (limits : Limits) (left : Nat) (state : State σ) (caller : Caller)
    (outer : List Caller) :
    match (run m limits left state).result with
    | .error fault =>
      (run m limits left (state.above (caller :: outer))).result = .error fault ∧
        (run m limits left (state.above (caller :: outer))).port = (run m limits left state).port
    | .ok value => ∃ rest ≤ left, run m limits left (state.above (caller :: outer)) =
        run m limits rest
          ⟨caller.frame.setValue caller.result value, outer, (run m limits left state).port⟩ := by
  induction left generalizing state with
  | zero =>
    cases goesOn : state.frame.rest with
    | nil =>
      have goesOn' : (state.above (caller :: outer)).frame.rest = [] := goesOn
      rw [run_empty goesOn, run_empty goesOn']
      exact ⟨rfl, rfl⟩
    | cons id rest =>
      have goesOn' : (state.above (caller :: outer)).frame.rest = id :: rest := goesOn
      rw [run, goesOn, run, goesOn']
      exact ⟨rfl, rfl⟩
  | succ left ih =>
    cases goesOn : state.frame.rest with
    | nil =>
      have goesOn' : (state.above (caller :: outer)).frame.rest = [] := goesOn
      rw [run_empty goesOn, run_empty goesOn']
      exact ⟨rfl, rfl⟩
    | cons id rest =>
      have goesOn' : (state.above (caller :: outer)).frame.rest = id :: rest := goesOn
      have stepped : (state.above (caller :: outer)).step m limits id rest = _ := State.step_above state id rest
      cases steps : state.step m limits id rest with
      | running next =>
        rw [steps] at stepped
        rw [run_running goesOn steps, run_running goesOn' stepped]
        have later := ih next
        revert later
        cases (run m limits left next).result with
        | error fault => exact fun later => later
        | ok value => exact fun ⟨rest, bound, same⟩ => ⟨rest, Nat.le_succ_of_le bound, same⟩
      | done result port =>
        rw [steps] at stepped
        rw [run_done goesOn steps]
        cases result with
        | error fault =>
          rw [run_done goesOn' stepped]
          exact ⟨rfl, rfl⟩
        | ok value =>
          rw [run_running goesOn' stepped]
          exact ⟨left, Nat.le_succ left, rfl⟩

/-- All that calling a function can come to. -/
inductive Arrives (m : Module) (limits : Limits) (port : Port σ) (depth id : Nat) (args : List Double) :
    Except Fault Entry × Port σ → Prop where
  | tooDeep (deep : limits.callDepth < depth) :
      Arrives m limits port depth id args (.error (.callDepth limits.callDepth), port)
  | unknown (missing : m.raw? id = none) : Arrives m limits port depth id args (.error .dangling, port)
  | removed {f : Function} (found : m.raw? id = some f) (gone : f.removed = true) :
      Arrives m limits port depth id args (.error (.removedFunction f.name), port)
  | mismatch {f : Function} (found : m.raw? id = some f) (differ : f.params.length ≠ args.length) :
      Arrives m limits port depth id args (.error (.argumentCount f.name f.params.length args.length), port)
  | unresolved {f : Function} (found : m.raw? id = some f) (none : builtin? f.name args = none) :
      Arrives m limits port depth id args (.error (.unresolvedExternal f.name), port)
  | builtin {f : Function} {bytes : List UInt8} {after : Port σ} (found : m.raw? id = some f)
      (known : builtin? f.name args = some bytes) (writes : port.write bytes = (none, after)) :
      Arrives m limits port depth id args (.ok (.value .zero), after)
  | unwritten {f : Function} {bytes : List UInt8} {reason : String} {after : Port σ} (found : m.raw? id = some f)
      (known : builtin? f.name args = some bytes) (fails : port.write bytes = (some reason, after)) :
      Arrives m limits port depth id args (.error (.sinkFailed reason), after)
  | body {f : Function} (found : m.raw? id = some f) (live : f.removed = false)
      (bodied : f.isDeclaration = false) : Arrives m limits port depth id args (enterBody f args depth, port)

theorem enter_arrives (m : Module) (limits : Limits) (port : Port σ) (depth id : Nat) (args : List Double) :
    Arrives m limits port depth id args (enter m limits port depth id args) := by
  unfold enter
  split
  · next deep => exact .tooDeep deep
  · split
    · next missing => exact .unknown missing
    · next f found =>
      split
      · next gone => exact .removed found gone
      · next live =>
        split
        · next differ => exact .mismatch found differ
        · split
          · unfold callBuiltin
            split
            · next none => exact .unresolved found none
            · next known =>
              split
              · next writes => exact .builtin found known writes
              · next writes => exact .unwritten found known writes
          · next bodied => exact .body found (Bool.eq_false_iff.mpr live) (Bool.eq_false_iff.mpr bodied)

theorem grows_enter (m : Module) (limits : Limits) (port : Port σ) (depth id : Nat) (args : List Double) :
    port.Grows (enter m limits port depth id args).2 := by
  have arrives := enter_arrives m limits port depth id args
  generalize enter m limits port depth id args = entered at arrives ⊢
  have grows : ∀ bytes, port.Grows (port.write bytes).2 := fun bytes => .write .refl bytes
  cases arrives with
  | @builtin f bytes after found known writes =>
    specialize grows bytes
    rwa [writes] at grows
  | @unwritten f bytes reason after found known fails =>
    specialize grows bytes
    rwa [fails] at grows
  | _ => exact .refl

/-- The fault of an instruction that cannot be carried out. -/
inductive Frame.Raises (x : Frame) (instr : Instr) : Fault → Prop where
  | operand {operand : Operand} {fault : Fault} (used : operand ∈ instr.operands)
      (fails : x.read operand = .error fault) : Raises x instr fault
  | target {dest : Nat} {fault : Fault} (named : dest ∈ instr.targets) (fails : x.goto dest = .error fault) :
      Raises x instr fault

/-- All that carrying out an instruction can lead to. -/
inductive State.Does (m : Module) (limits : Limits) (state : State σ) (id : Nat) (instr : Instr) :
    Progress σ → Prop where
  | fault {fault : Fault} (raises : state.frame.Raises instr fault) : Does m limits state id instr (state.fail fault)
  | compute (value : Double) :
      Does m limits state id instr (.running { state with frame := state.frame.setValue id value })
  | write (slot : Nat) (value : Double) :
      Does m limits state id instr (.running { state with frame := state.frame.writeSlot slot value })
  | skip : Does m limits state id instr (.running state)
  | jump {dest : Nat} {frame : Frame} (named : dest ∈ instr.targets) (lands : state.frame.goto dest = .ok frame) :
      Does m limits state id instr (.running { state with frame := frame })
  | call {callee : Nat} {args : List Operand} {values : List Double} (calls : instr = .call callee args)
      (reads : state.frame.readAll args = .ok values) :
      Does m limits state id instr (state.call m limits id callee values)
  | ret (value : Double) : Does m limits state id instr (state.returnValue value)

private theorem Frame.readAll_error {x : Frame} {operands : List Operand} {fault : Fault}
    (fails : x.readAll operands = .error fault) : ∃ operand ∈ operands, x.read operand = .error fault := by
  induction operands with
  | nil => contradiction
  | cons operand operands ih =>
    rw [readAll] at fails
    split at fails
    · next first =>
      cases fails
      exact ⟨operand, List.mem_cons_self, first⟩
    · split at fails
      · next others =>
        cases fails
        obtain ⟨other, member, reads⟩ := ih others
        exact ⟨other, List.mem_cons_of_mem _ member, reads⟩
      · contradiction

private theorem Frame.readPlace_error {x : Frame} {place : Operand} {fault : Fault}
    (fails : x.readPlace place = .error fault) : x.read place = .error fault := by
  cases place with
  | inst slot => contradiction
  | _ => exact fails

private theorem State.continueWith_does {m : Module} {limits : Limits} {state : State σ} {id dest : Nat} {instr : Instr}
    (named : dest ∈ instr.targets) :
    state.Does m limits id instr (state.continueWith (state.frame.goto dest)) := by
  cases lands : state.frame.goto dest with
  | error fault => exact .fault (.target named lands)
  | ok frame => exact .jump named lands

theorem State.exec_does (m : Module) (limits : Limits) (state : State σ) (id : Nat) (instr : Instr) :
    state.Does m limits id instr (state.exec m limits id instr) := by
  cases instr with
  | arith op lhs rhs =>
    rw [exec]
    split
    · next fails => exact .fault (.operand List.mem_cons_self fails)
    · next fails _ => exact .fault (.operand (List.mem_cons_of_mem _ List.mem_cons_self) fails)
    · exact .compute _
  | compare rel lhs rhs =>
    rw [exec]
    split
    · next fails => exact .fault (.operand List.mem_cons_self fails)
    · next fails _ => exact .fault (.operand (List.mem_cons_of_mem _ List.mem_cons_self) fails)
    · exact .compute _
  | toReal flag =>
    rw [exec]
    split
    · next fails => exact .fault (.operand List.mem_cons_self fails)
    · exact .compute _
  | call callee args =>
    rw [exec]
    split
    · next fails =>
      obtain ⟨operand, member, fails⟩ := Frame.readAll_error fails
      exact .fault (.operand member fails)
    · next reads => exact .call rfl reads
  | slot => exact .write id .zero
  | load place =>
    rw [exec]
    split
    · next fails => exact .fault (.operand List.mem_cons_self (Frame.readPlace_error fails))
    · exact .compute _
  | store value place =>
    cases place with
    | inst slot =>
      rw [exec]
      split
      · next fails => exact .fault (.operand List.mem_cons_self fails)
      · exact .write slot _
    | _ => exact .skip
  | jump dest => exact continueWith_does List.mem_cons_self
  | branch flag yes no =>
    rw [exec]
    split
    · next fails => exact .fault (.operand List.mem_cons_self fails)
    · next value _ =>
      refine continueWith_does ?_
      cases value.truthy <;> simp [Instr.targets]
  | ret value =>
    rw [exec]
    split
    · next fails => exact .fault (.operand List.mem_cons_self fails)
    · exact .ret _

def Progress.port : Progress σ → Port σ
  | running state => state.port
  | done _ port => port

/-- Only calls touch the port. -/
theorem State.Does.grows {id : Nat} {instr : Instr} {progress : Progress σ}
    (does : state.Does m limits id instr progress) : state.port.Grows progress.port := by
  cases does with
  | @call callee args values calls reads =>
    have grows := grows_enter m limits state.port (state.frame.depth + 1) callee values
    unfold State.call
    split <;> next same => rwa [same] at grows
  | ret value =>
    unfold returnValue
    split <;> exact .refl
  | _ => exact .refl

theorem State.grows_step (m : Module) (limits : Limits) (state : State σ) (id : Nat) (rest : List Nat) :
    state.port.Grows (state.step m limits id rest).port := by
  unfold step
  split
  · exact .refl
  · next inst _ => exact (exec_does m limits { state with frame := { state.frame with rest := rest } } id _).grows

theorem grows_run (m : Module) (limits : Limits) (left : Nat) (state : State σ) :
    state.port.Grows (run m limits left state).port := by
  induction left generalizing state with
  | zero =>
    rw [run]
    split <;> exact .refl
  | succ left ih =>
    rw [run]
    split
    · exact .refl
    · next id rest _ =>
      have grows := State.grows_step m limits state id rest
      dsimp only
      split
      · next same => rwa [same] at grows
      · next same =>
        rw [same] at grows
        exact grows.trans (ih _)

theorem grows_call (m : Module) (limits : Limits) (steps : Nat) (port : Port σ) (depth id : Nat) (args : List Double) :
    port.Grows (call m limits steps port depth id args).port := by
  have grows := grows_enter m limits port depth id args
  unfold call
  split
  · next same => rwa [same] at grows
  · next same => rwa [same] at grows
  · next frame after same =>
    rw [same] at grows
    exact grows.trans (grows_run m limits steps ⟨frame, [], after⟩)

/-- A flush that does not fail changes nothing but the sink. -/
theorem result_runFunction {sink : σ} (flushes : Output.Flushes sink) (m : Module) (limits : Limits) (id : Nat)
    (args : List Double) :
    (runFunction m limits sink id args).result = (call m limits limits.steps (.new sink) 0 id args).result := by
  have flushes := flushes _ (grows_call m limits limits.steps (.new sink) 0 id args).sink
  rw [runFunction_eq_call, Outcome.result_flushed, Outcome.sink, flushes]

theorem output_runFunction (m : Module) (limits : Limits) (sink : σ) (id : Nat) (args : List Double) :
    (runFunction m limits sink id args).output = (call m limits limits.steps (.new sink) 0 id args).output := by
  rw [runFunction_eq_call, Outcome.output_flushed]

theorem sink_runFunction (m : Module) (limits : Limits) (sink : σ) (id : Nat) (args : List Double) :
    (runFunction m limits sink id args).sink =
      (Output.flush (call m limits limits.steps (.new sink) 0 id args).sink).2 := by
  rw [runFunction_eq_call, Outcome.sink_flushed]

theorem steps_runFunction (m : Module) (limits : Limits) (sink : σ) (id : Nat) (args : List Double) :
    (runFunction m limits sink id args).steps = (call m limits limits.steps (.new sink) 0 id args).steps := by
  rw [runFunction_eq_call, Outcome.steps_flushed]

/-- The bytes that a run says it has written are those that its sink has gained. -/
theorem Sink.written_runFunction (m : Module) (limits : Limits) (sink : Sink) (id : Nat) (args : List Double) :
    (runFunction m limits sink id args).sink.written = sink.written ++ (runFunction m limits sink id args).output := by
  obtain ⟨bytes, output, written⟩ := written_of_grows (grows_call m limits limits.steps (.new sink) 0 id args)
  rw [output_runFunction, runFunction_eq_call]
  show (call m limits limits.steps (.new sink) 0 id args).port.sink.written =
    sink.written ++ (call m limits limits.steps (.new sink) 0 id args).port.output
  rw [written, output]
  exact Array.ext' (by simp [Port.new])

end Kaleidoscope.Machine
