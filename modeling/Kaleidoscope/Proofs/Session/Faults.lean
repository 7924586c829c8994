import Kaleidoscope.Proofs.Machine.Reached
import Kaleidoscope.Proofs.Session.Linked

/-!
What can go wrong while a session runs its expressions. Every call is of a function whose body is in order, with as
many arguments as it has parameters, so only limits, functions without a body and the sink can end a run.
-/

namespace Kaleidoscope

open Kaleidoscope.Flow

namespace Machine

variable {σ : Type} [Output σ]

/-- The faults that a program can run into when it writes to `sink`. -/
inductive Fault.Foreseen (limits : Limits) (sink : σ) : Fault → Prop where
  | stepLimit : Foreseen limits sink (.stepLimit limits.steps)
  | callDepth : Foreseen limits sink (.callDepth limits.callDepth)
  | removedFunction (name : String) : Foreseen limits sink (.removedFunction name)
  | unresolvedExternal (name : String) : Foreseen limits sink (.unresolvedExternal name)
  | sinkFailed {reason : String} (fails : Output.Fails sink reason) : Foreseen limits sink (.sinkFailed reason)

/-- What the sink may say later on it may say from the start. -/
theorem Fault.Foreseen.earlier {limits : Limits} {sink later : σ} {fault : Fault} (after : Output.After sink later)
    (foreseen : fault.Foreseen limits later) : fault.Foreseen limits sink := by
  cases foreseen with
  | stepLimit => exact .stepLimit
  | callDepth => exact .callDepth
  | removedFunction name => exact .removedFunction name
  | unresolvedExternal name => exact .unresolvedExternal name
  | sinkFailed fails => exact .sinkFailed (fails.earlier after)

/-- A call of a live function of the module, somewhere such a call can get to. -/
def Frame.Placed (m : Module) (x : Frame) : Prop :=
  ∃ id f trail done, m.raw? id = some f ∧ f.removed = false ∧ f.WellFormed ∧ f.Reached trail done x

/-- All calls of a state are where they can get to, those that wait with any result. -/
structure State.Placed (m : Module) (state : State σ) : Prop where
  frame : state.frame.Placed m
  callers : ∀ caller ∈ state.callers, ∀ value, (caller.frame.setValue caller.result value).Placed m

/-- A result that is a value or a foreseen fault. -/
def Orderly (limits : Limits) (sink : σ) (result : Except Fault Double) : Prop :=
  ∀ fault, result = .error fault → fault.Foreseen limits sink

/-- A state to go on from, or an orderly end. -/
def Progress.Placed (m : Module) (limits : Limits) (sink : σ) : Progress σ → Prop
  | .running state => state.Placed m
  | .done result _ => Orderly limits sink result

private theorem orderly_ok (limits : Limits) (sink : σ) (value : Double) : Orderly limits sink (.ok value) :=
  fun _ failed => by contradiction

private theorem Fault.Foreseen.orderly {limits : Limits} {sink : σ} {fault : Fault}
    (foreseen : fault.Foreseen limits sink) : Orderly limits sink (.error fault) := by
  rintro _ ⟨⟩
  exact foreseen

theorem Orderly.earlier {limits : Limits} {sink later : σ} {result : Except Fault Double}
    (after : Output.After sink later) (orderly : Orderly limits later result) : Orderly limits sink result :=
  fun fault failed => (orderly fault failed).earlier after

private theorem Outcome.orderly_flushed {limits : Limits} {sink : σ} {outcome : Outcome σ}
    (after : Output.After sink outcome.sink) (orderly : Orderly limits sink outcome.result) :
    Orderly limits sink outcome.flushed.result := by
  rw [result_flushed]
  split
  · exact orderly
  · next fails => exact (Fault.Foreseen.sinkFailed (.flush after fails)).orderly

private theorem Frame.length_readAll {x : Frame} {operands : List Operand} {values : List Double}
    (reads : x.readAll operands = .ok values) : values.length = operands.length := by
  induction operands generalizing values with
  | nil =>
    cases reads
    rfl
  | cons operand operands ih =>
    rw [readAll] at reads
    split at reads
    · contradiction
    · split at reads
      · contradiction
      · next others =>
        cases reads
        simp [ih others]

/-- A call that has been entered, or a foreseen fault. -/
def EntersPlaced (m : Module) (limits : Limits) (sink : σ) : Except Fault Entry → Prop
  | .error fault => fault.Foreseen limits sink
  | .ok (.value _) => True
  | .ok (.body frame) => frame.Placed m

variable {m : Module} {limits : Limits} {id : Nat} {args : List Double}

/-- A call with the right number of arguments fails in a foreseen way or starts at the entry of its function. -/
theorem enter_placed (limits : Limits) (linked : m.Linked) {f : Function} (found : m.raw? id = some f)
    (count : f.params.length = args.length) (port : Port σ) (depth : Nat) :
    EntersPlaced m limits port.sink (enter m limits port depth id args).1 := by
  have arrives := enter_arrives m limits port depth id args
  generalize enter m limits port depth id args = entered at arrives ⊢
  cases arrives with
  | tooDeep => exact .callDepth
  | unknown missing => cases missing.symm.trans found
  | @removed g => exact .removedFunction g.name
  | mismatch found' differ =>
    cases found.symm.trans found'
    exact absurd count differ
  | @unresolved g => exact .unresolvedExternal g.name
  | builtin => trivial
  | @unwritten g bytes reason after found' known fails =>
    exact .sinkFailed (.write .start bytes (congrArg Prod.fst fails))
  | @body g found' live bodied =>
    have wellFormed := linked.wellFormed id g found' live bodied
    obtain ⟨entry, first, starts⟩ := wellFormed.enterBody_eq
    rw [starts]
    exact ⟨id, g, [], [], found', live, wellFormed, .start first⟩

variable {state : State σ}

private theorem State.placed_call (linked : m.Linked) {f : Function} {result : Nat} (found : m.raw? id = some f)
    (count : f.params.length = args.length) (waits : ∀ value, (state.frame.setValue result value).Placed m)
    (callers : ∀ caller ∈ state.callers, ∀ value, (caller.frame.setValue caller.result value).Placed m) :
    (state.call m limits result id args).Placed m limits state.port.sink := by
  have entered := enter_placed limits linked found count state.port (state.frame.depth + 1)
  unfold State.call
  generalize enter m limits state.port (state.frame.depth + 1) id args = entering at entered ⊢
  obtain ⟨result, port⟩ := entering
  cases result with
  | error fault => exact Fault.Foreseen.orderly entered
  | ok entry =>
    cases entry with
    | value value => exact ⟨waits value, callers⟩
    | body frame => exact ⟨entered, List.forall_mem_cons.mpr ⟨waits, callers⟩⟩

/-- One step leads to such a state again, or to an orderly end. -/
theorem State.Placed.step (limits : Limits) (linked : m.Linked) (placed : state.Placed m) {rest : List Nat}
    (goesOn : state.frame.rest = id :: rest) :
    (state.step m limits id rest).Placed m limits state.port.sink := by
  obtain ⟨⟨owner, f, trail, done, found, live, wellFormed, reached⟩, callers⟩ := placed
  have lies := reached.lies wellFormed
  obtain ⟨action, acts⟩ := wellFormed.progress lies
  obtain ⟨instr, split, here, performs⟩ := lies.performs goesOn acts
  rw [performs.step (lies.func ▸ here)]
  cases action with
  | move next => exact ⟨⟨owner, f, trail, _, found, live, wellFormed, reached.move goesOn acts⟩, callers⟩
  | jump next => exact ⟨⟨owner, f, _, [], found, live, wellFormed, reached.jump acts⟩, callers⟩
  | call next waiting callee values =>
    have waits : ∀ value, (next.setValue waiting value).Placed m := fun value =>
      ⟨owner, f, trail, _, found, live, wellFormed, reached.call goesOn acts value⟩
    cases performs with
    | @call _ operands _ reads =>
      have inBlock : id ∈ f.blockInsts state.frame.block := split ▸ List.mem_append_right _ List.mem_cons_self
      have member := wellFormed.live inBlock
      have called : f.callOf? id = some (callee, operands.length) := Function.callOf?_eq_some.mpr ⟨_, here, rfl⟩
      obtain ⟨g, found', _, count⟩ := linked.calls owner f found live callee operands.length ⟨id, member, called⟩
      exact State.placed_call linked found' (count.trans (Frame.length_readAll reads).symm) waits callers
  | ret value =>
    cases waiting : state.callers with
    | nil =>
      simp only [Frame.Action.effect, returnValue, waiting]
      exact orderly_ok limits _ value
    | cons caller outer =>
      simp only [Frame.Action.effect, returnValue, waiting]
      rw [waiting] at callers
      obtain ⟨first, others⟩ := List.forall_mem_cons.mp callers
      exact ⟨first value, others⟩

theorem Frame.Placed.goesOn {x : Frame} (placed : x.Placed m) : ∃ id rest, x.rest = id :: rest := by
  obtain ⟨_, f, _, _, _, _, wellFormed, reached⟩ := placed
  exact List.exists_cons_of_ne_nil (reached.lies wellFormed).goesOn

theorem State.Placed.run (linked : m.Linked) (placed : state.Placed m) (left : Nat) :
    Orderly limits state.port.sink (run m limits left state).result := by
  induction left generalizing state with
  | zero =>
    obtain ⟨id, rest, goesOn⟩ := placed.frame.goesOn
    rw [Machine.run, goesOn]
    exact Fault.Foreseen.stepLimit.orderly
  | succ left ih =>
    obtain ⟨id, rest, goesOn⟩ := placed.frame.goesOn
    have stepped := placed.step limits linked goesOn
    have grows := state.grows_step m limits id rest
    cases steps : state.step m limits id rest with
    | done result port =>
      rw [steps] at stepped
      rw [run_done goesOn steps]
      exact stepped
    | running next =>
      rw [steps] at stepped grows
      rw [run_running goesOn steps]
      exact (ih stepped).earlier grows.sink

/-- Calls from outside end in an orderly way if they pass as many arguments as there are parameters. -/
theorem runFunction_orderly (limits : Limits) (linked : m.Linked) {f : Function} (found : m.raw? id = some f)
    (count : f.params.length = args.length) (sink : σ) :
    Orderly limits sink (runFunction m limits sink id args).result := by
  have entered := enter_placed limits linked found count (.new sink) 0
  have grows := grows_enter m limits (.new sink) 0 id args
  rw [runFunction_eq_call]
  refine Outcome.orderly_flushed (grows_call m limits limits.steps (.new sink) 0 id args).sink ?_
  unfold call
  generalize enter m limits (.new sink) 0 id args = entering at entered grows ⊢
  obtain ⟨result, port⟩ := entering
  cases result with
  | error fault => exact Fault.Foreseen.orderly entered
  | ok entry =>
    cases entry with
    | value value => exact orderly_ok limits sink value
    | body frame =>
      have placed : State.Placed m ⟨frame, [], port⟩ := ⟨entered, List.forall_mem_nil _⟩
      exact (placed.run linked limits.steps).earlier grows.sink

private theorem after_runFunction (m : Module) (limits : Limits) (sink : σ) (id : Nat) (args : List Double) :
    Output.After sink (runFunction m limits sink id args).sink := by
  rw [sink_runFunction]
  exact (grows_call m limits limits.steps (.new sink) 0 id args).sink.flush

end Machine

namespace Session

variable {σ : Type} {passes : List Pass} {session : Session σ} {lost : List Nat}

/-- The module of a session is in order when the expression just lowered is run. -/
theorem Evolved.linked_lowering (evolved : Evolved session lost) {form : Form} (written : form.Spelled) :
    (session.lowering form).module.Linked := by
  obtain ⟨name, steps⟩ := evolved.steps
  have operators := steps.operators (operators_empty name)
  exact (Context.steps_lowering evolved.sound evolved.spelled operators written).linked evolved.linked

variable [Machine.Output σ]

/-- Whatever a form comes to, a fault is a foreseen one. -/
def Outcome.Orderly (limits : Machine.Limits) (sink : σ) (outcome : Outcome) : Prop :=
  ∀ fault, outcome = .failed (.evaluation fault) → fault.Foreseen limits sink

private theorem limits_handleForm (session : Session σ) (form : Form) :
    (session.handleForm form).2.limits = session.limits := by
  obtain ⟨_, _, same⟩ := session.handleForm_frame form
  rw [same]
  rfl

private theorem limits_handle (session : Session σ) (form : Except SyntaxError Form) :
    (session.handle form).2.limits = session.limits := by
  cases form with
  | error reason => rfl
  | ok form => exact session.limits_handleForm form

/-- What a session does to its sink it does by writing and flushing. -/
theorem after_handleForm (session : Session σ) (form : Form) :
    Machine.Output.After session.sink (session.handleForm form).2.sink := by
  have handles := session.handleForm_handles form
  generalize session.handleForm form = handled at handles ⊢
  cases handles with
  | rejected _ => exact .start
  | kept _ _ _ => exact .start
  | @run id done evaluates bare =>
    rw [runOnce_eq]
    exact Machine.after_runFunction _ _ session.sink id []

private theorem after_handle (session : Session σ) (form : Except SyntaxError Form) :
    Machine.Output.After session.sink (session.handle form).2.sink := by
  cases form with
  | error reason => exact .start
  | ok form => exact session.after_handleForm form

private theorem Evolved.handleForm_orderly (evolved : Evolved session lost) {form : Form} (written : form.Spelled) :
    (session.handleForm form).1.outcome.Orderly session.limits session.sink := by
  have handles := session.handleForm_handles form
  generalize session.handleForm form = handled at handles ⊢
  intro fault failed
  cases handles with
  | rejected _ => cases failed
  | kept _ _ well => exact absurd failed (well _)
  | @run id done evaluates bare =>
    cases form with
    | declaration proto => contradiction
    | definition proto body =>
      obtain ⟨f, found, count⟩ := Context.params_definition evolved.sound done
      have linked := evolved.linked_lowering written
      have none : f.params.length = ([] : List Double).length :=
        count.trans (congrArg List.length (written.1.bare bare))
      have orderly := Machine.runFunction_orderly session.limits linked found none session.sink
      rw [runOnce_eq] at failed
      dsimp only at failed
      split at failed
      · contradiction
      · next result =>
        cases failed
        exact orderly _ result

private theorem Reachable.handle_orderly (reachable : session.Reachable passes lost) {source : String}
    {tokens : List Token} (part : tokens <:+ Token.significant source) {item : Form.Item}
    (read : Form.next? session.table tokens = some item) (table : PrecedenceTable) :
    ({ session with table := table }.handle item.form).1.outcome.Orderly session.limits session.sink := by
  obtain ⟨written, _⟩ := Form.spelled_next? part read
  cases same : item.form with
  | error reason =>
    rintro _ ⟨⟩
  | ok form =>
    obtain ⟨sound, spelled, steps⟩ := reachable.evolved
    have evolved : Evolved { session with table := table } lost := ⟨sound, spelled, steps⟩
    exact evolved.handleForm_orderly (written form same)

/-- Every form comes to something good, and what is kept is kept by handling it. -/
def Ensures (passes : List Pass) (kept : Session σ → Prop) (good : Outcome → Prop) : Prop :=
  ∀ (session : Session σ) (lost : List Nat) (source : String) (tokens : List Token) (item : Form.Item),
    session.Reachable passes lost → kept session → tokens <:+ Token.significant source →
    Form.next? session.table tokens = some item →
    good ({ session with table := item.table }.handle item.form).1.outcome ∧
      kept ({ session with table := item.table }.handle item.form).2

/-- What holds between the forms of a source. -/
structure Underway (passes : List Pass) (kept : Session σ → Prop) (good : Outcome → Prop)
    (state : List Event × Session σ) (table : PrecedenceTable) : Prop where
  settled : state.2.table = table
  reachable : ∃ lost, state.2.Reachable passes lost
  holds : kept state.2
  outcomes : ∀ event ∈ state.1, good event.outcome

variable {kept : Session σ → Prop} {good : Outcome → Prop}

theorem Ensures.next (ensures : Ensures passes kept good) {state : List Event × Session σ} {table : PrecedenceTable}
    (underway : Underway passes kept good state table) {source : String} {tokens : List Token}
    (part : tokens <:+ Token.significant source) {item : Form.Item} (read : Form.next? table tokens = some item) :
    Underway passes kept good (handleNext state item.table item.form).1 (handleNext state item.table item.form).2 := by
  obtain ⟨rfl, ⟨lost, reached⟩, holds, outcomes⟩ := underway
  obtain ⟨more, onward⟩ := reached.next part read
  obtain ⟨outcome, still⟩ := ensures _ _ _ _ _ reached holds part read
  exact ⟨rfl, ⟨_, onward⟩, still, List.forall_mem_cons.mpr ⟨outcome, outcomes⟩⟩

theorem Ensures.run (ensures : Ensures passes kept good) (reachable : session.Reachable passes lost)
    (holds : kept session) (source : String) :
    (∀ event ∈ (session.run source).1, good event.outcome) ∧ kept (session.run source).2 := by
  have start : Underway passes kept good ([], session) session.table :=
    ⟨rfl, ⟨lost, reachable⟩, holds, List.forall_mem_nil _⟩
  have last := Form.fold_preserves handleNext (Underway passes kept good)
    (fun _ _ _ _ part underway read => ensures.next underway part read)
    (List.suffix_refl (Token.significant source)) start
  refine ⟨fun event member => last.outcomes event (List.mem_reverse.mp member), ?_⟩
  rw [run_eq, ← last.settled]
  exact last.holds

/-- Runs sources one after the other in one session. -/
def runAll (session : Session σ) : List String → List Event × Session σ
  | [] => ([], session)
  | source :: sources =>
    let (events, session) := session.run source
    let (more, session) := session.runAll sources
    (events ++ more, session)

theorem Ensures.runAll (ensures : Ensures passes kept good) (reachable : session.Reachable passes lost)
    (holds : kept session) (sources : List String) : ∀ event ∈ (session.runAll sources).1, good event.outcome := by
  induction sources generalizing session lost with
  | nil => exact List.forall_mem_nil _
  | cons source sources ih =>
    obtain ⟨more, onward⟩ := reachable.run source
    obtain ⟨outcomes, still⟩ := ensures.run reachable holds source
    exact List.forall_mem_append.mpr ⟨outcomes, ih onward still⟩

private theorem ensures_orderly (passes : List Pass) (limits : Machine.Limits) (sink : σ) :
    Ensures passes (fun session => session.limits = limits ∧ Machine.Output.After sink session.sink)
      (Outcome.Orderly limits sink) := by
  rintro session lost source tokens item reachable ⟨rfl, after⟩ part read
  have orderly := reachable.handle_orderly part read item.table
  exact ⟨fun fault failed => (orderly fault failed).earlier after, limits_handle _ item.form,
    after.trans (after_handle { session with table := item.table } item.form)⟩

private theorem Reachable.runAll_orderly (reachable : session.Reachable passes lost) (sources : List String) :
    ∀ event ∈ (session.runAll sources).1, event.outcome.Orderly session.limits session.sink :=
  (ensures_orderly passes session.limits session.sink).runAll reachable ⟨rfl, .start⟩ sources

end Session

/-- Whatever sources a session runs, an expression fails only by a limit, a function that was given up, a function that
has no body and is not built in, or by a failure of the sink itself. Its instructions never read what is not there. -/
theorem evaluation_faults_foreseen {σ : Type} [Machine.Output σ] (config : Config) (sink : σ) (sources : List String)
    {event : Session.Event} (happens : event ∈ ((Session.new config sink).runAll sources).1) {fault : Machine.Fault}
    (failed : event.outcome = .failed (.evaluation fault)) : fault.Foreseen config.limits sink := by
  have start : (Session.new config sink).Reachable _ [] := .new config.moduleName sink config.evaluate config.limits
  exact start.runAll_orderly sources event happens fault failed

/-- A sink that takes nothing. -/
def closedSink : Machine.Sink := ⟨#[], some 0, false⟩

/-- `g` calls `f`, whose definition is given up before `g` is run. Then something is to be written. -/
def severedRun : List Session.Event :=
  ((Session.new ⟨"m", true, true, ⟨100, 3⟩⟩ closedSink).runAll
    ["extern f(x); def g(x) f(x); def f(x) y", "g(1)", "extern putchard(c); putchard(1)"]).1

theorem evaluation_faults_foreseen_severed :
    (⟨.failed (.evaluation (.removedFunction "f")), #[]⟩ ∈ severedRun ∧
      (Machine.Fault.removedFunction "f").Foreseen ⟨100, 3⟩ closedSink) ∧
    ⟨.failed (.evaluation (.sinkFailed "output full")), #[]⟩ ∈ severedRun ∧
      (Machine.Fault.sinkFailed "output full").Foreseen ⟨100, 3⟩ closedSink := by
  have severed : ⟨.failed (.evaluation (.removedFunction "f")), #[]⟩ ∈ severedRun := by decide +kernel
  have closed : ⟨.failed (.evaluation (.sinkFailed "output full")), #[]⟩ ∈ severedRun := by decide +kernel
  exact ⟨⟨severed, evaluation_faults_foreseen ⟨"m", true, true, ⟨100, 3⟩⟩ closedSink _ severed rfl⟩,
    closed, evaluation_faults_foreseen ⟨"m", true, true, ⟨100, 3⟩⟩ closedSink _ closed rfl⟩

end Kaleidoscope
