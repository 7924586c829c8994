import Mathlib
import Kaleidoscope.Proofs.Lowering.Reachable
import Kaleidoscope.Proofs.Meaning.Control

/-!
Lowered functions do what evaluating their bodies does.
-/

namespace Kaleidoscope

open Kaleidoscope.Flow Kaleidoscope.Machine

open Evaluator

variable {σ : Type} [Output σ] {e : Evaluator σ} {m : Module} {f : Function} {scope : Scope} {exprs : List Expr}
  {s t : Site} {values : List Operand}

/-- The code of expressions does what evaluating them one after the other does, and leaves their values behind. -/
theorem Lowers.simulates (code : Lowers m scope exprs s values t) (resolves : ∀ name, e.resolve name = m.find? name)
    (arranged : f.Arranged) (ready : s.Ready scope) (distinct : (scope.map Prod.snd).Nodup)
    (grows : t.func.Grows f) :
    e.Simulates f scope (e.arguments exprs) s t fun found y => y.readAll values = .ok found := by
  induction code with
  | nil =>
    intro left enough state cells depth stands holds
    rw [arguments]
    exact .pure ⟨⟨stands, holds, .refl _ _⟩, rfl⟩
  | @cons scope expr others s t u v vs first rest ih ih' =>
    obtain ⟨ready', grown, older⟩ := first.ready ready
    obtain ⟨_, grown', _⟩ := rest.ready ready'
    have one := simulates_one (ih ready distinct (grown'.trans grows))
    have all := ih' ready' distinct grows
    intro left enough state cells depth stands holds
    rw [arguments]
    refine (one left enough state cells depth stands holds).bind ?_
    rintro value cells port frame fewer bound ⟨⟨stands, holds, keeps⟩, reads⟩
    refine (all fewer (Nat.le_trans bound enough) ⟨frame, state.callers, port⟩ cells
      (depth.trans keeps.depth.symm) stands holds).bind ?_
    rintro found cells port frame fewer _ ⟨⟨stands, holds, keeps'⟩, reads'⟩
    refine .pure ⟨⟨stands, holds, keeps.trans keeps' grown.insts⟩, ?_⟩
    simp only [Frame.readAll, keeps'.read (older v (List.mem_singleton_self v)) reads, reads']
  | number =>
    refine simulates_all fun left enough state cells depth stands holds => ?_
    rw [expr]
    exact .pure ⟨⟨stands, holds, .refl _ _⟩, rfl⟩
  | var bound =>
    obtain ⟨_, _, draft, _⟩ := ready
    exact simulates_all (var_simulates draft bound grows)
  | @assign scope name expr slot v s t value bound ih =>
    obtain ⟨waiting, said, draft, slots⟩ := ready
    obtain ⟨more, done, onward, inHand⟩ := value.draft draft slots
    have simulates := simulates_one (ih ⟨_, _, draft, slots⟩ distinct ((done.shape.grows_push rfl "").trans grows))
    exact simulates_all (assign_simulates done (inHand v (List.mem_singleton_self v)) onward.grows.insts distinct
      bound grows simulates)
  | @arith scope symbol op hint lhs rhs s t l r known operands ih =>
    obtain ⟨⟨_, _, done, _⟩, grown, _⟩ := operands.ready ready
    have simulates := ih ready distinct ((done.shape.grows_arith op l r hint).trans grows)
    exact simulates_all (arith_simulates known done grown.insts grows simulates)
  | @less scope lhs rhs s t l r operands ih =>
    obtain ⟨waiting, said, draft, slots⟩ := ready
    obtain ⟨more, done, onward, inHand⟩ := operands.draft draft slots
    have compared := done.compare .less "cmptmp" (by simpa using inHand)
    have grows' := (compared.shape.grows_push rfl "booltmp").trans grows
    have simulates := ih ⟨_, _, draft, slots⟩ distinct ((done.shape.grows_push rfl "cmptmp").trans grows')
    exact simulates_all (less_simulates done compared onward.grows.insts grows simulates)
  | @binary scope symbol callee lhs rhs s t l r user operands found ih =>
    obtain ⟨⟨_, _, done, _⟩, grown, _⟩ := operands.ready ready
    have simulates := ih ready distinct ((done.shape.grows_push rfl "binop").trans grows)
    apply simulates_all
    rw [expr_operator user]
    exact call_simulates done ((resolves _).trans found) grown.insts grows simulates
  | @unary scope symbol callee operand s t v value found ih =>
    obtain ⟨⟨_, _, done, _⟩, grown, _⟩ := value.ready ready
    have simulates := ih ready distinct ((done.shape.grows_push rfl "unop").trans grows)
    apply simulates_all
    rw [expr_unary]
    exact call_simulates done ((resolves _).trans found) grown.insts grows simulates
  | @call scope name callee args s t vs found count values ih =>
    obtain ⟨⟨_, _, done, _⟩, grown, _⟩ := values.ready ready
    have simulates := ih ready distinct ((done.shape.grows_push rfl "calltmp").trans grows)
    apply simulates_all
    rw [expr_call]
    exact call_simulates done ((resolves _).trans found) grown.insts grows simulates
  | @cond scope test yes no s t u w v a b tested first second ih ih' ih'' =>
    have places := tested.branches first second ready
    obtain ⟨_, before, _⟩ := tested.ready ready
    obtain ⟨_, _, joined, _⟩ := places.joined
    have joins := (joined.shape.grows_push rfl "iftmp").trans grows
    have switches := places.runs'.trans (places.joins.trans joins)
    refine simulates_all (cond_simulates arranged places ready before grows ?_ ?_ ?_)
    · exact simulates_one (ih ready distinct
        (places.forks.trans (places.runs.trans (places.switches.trans switches))))
    · exact simulates_one (ih' places.forked distinct (places.switches.trans switches))
    · exact simulates_one (ih'' places.other distinct (places.joins.trans joins))
  | @loop scope name start stop body step s t u first value stride ignored started round ih ih' =>
    have places := started.rounds round ready
    have apart := ready.next_notMem
    obtain ⟨_, before, _⟩ := started.ready (ready.addSlot name)
    obtain ⟨_, _, older⟩ := round.ready places.entered
    have runs := places.advances.trans (places.leaves.trans grows)
    have starts := simulates_one (ih (ready.addSlot name) distinct (places.enters.trans (places.runs.trans runs)))
    have rounds := ih' places.entered (List.nodup_cons.mpr ⟨apart, distinct⟩) runs
    exact simulates_all (loop_simulates arranged ready places distinct before
      ⟨older stride (by simp), older value (by simp)⟩ grows starts rounds)
  | @bindNone scope body s t v value ih =>
    have simulates := simulates_one (ih ready distinct grows)
    refine simulates_all fun left enough state cells depth stands holds => ?_
    rw [expr, withBindings]
    exact simulates left enough state cells depth stands holds
  | @bindOne scope name init body bindings s t u v w value others ih ih' =>
    obtain ⟨ready', before, older⟩ := value.ready ready
    obtain ⟨bound, adds⟩ := value.readyVariable name ready
    obtain ⟨_, grown, _⟩ := others.ready bound
    have first := simulates_one (ih ready distinct (adds.trans (grown.trans grows)))
    have rest := simulates_one (ih' bound (List.nodup_cons.mpr ⟨ready'.next_notMem, distinct⟩) grows)
    exact simulates_all (bindOne_simulates ready' before (grown.trans grows) first rest)

namespace Agrees

variable {α : Type} {limits : Limits} {left : Nat} {state : State σ} {site : Site}
  {evaluation : Port σ → Option (Except Fault (α × Cells) × Port σ)} {after : α → Cells → Frame → Prop}

/-- The slots at the top of a function are emptied first. -/
theorem slots (ids : List Nat) {rest : List Nat} (goesOn : state.frame.rest = ids ++ rest)
    (all : ∀ id ∈ ids, state.frame.func.isSlot id = true)
    (later : ∀ slots, ∀ fewer ≤ left,
      Agrees m limits fewer { state with frame := { state.frame with slots := slots, rest := rest } }
        evaluation after) :
    Agrees m limits left state evaluation after := by
  induction ids generalizing state left with
  | nil =>
    have same : state = { state with frame := { state.frame with slots := state.frame.slots, rest := rest } } := by
      rw [← show state.frame.rest = rest from goesOn]
    rw [same]
    exact later _ left (Nat.le_refl _)
  | cons id ids ih =>
    have found : state.frame.func.instr? id = some .slot := by
      have slot := all id List.mem_cons_self
      unfold Function.isSlot at slot
      cases found : state.frame.func.instr? id with
      | none => simp [found] at slot
      | some instr => cases instr <;> simp_all [Instr.isSlot]
    refine step goesOn (State.step_eq found (ids ++ rest)) fun fewer bound => ?_
    refine ih rfl (fun id member => all id (List.mem_cons_of_mem _ member)) fun slots fewer' bound' => ?_
    exact later slots fewer' (by omega)

/-- Parameters are stored to their slots from left to right. -/
theorem bindParams (names : List String) (index : Nat) {args : List Double} {cells : Cells}
    (ready : site.Ready scope) (distinct : (scope.map Prod.snd).Nodup)
    (count : index + names.length ≤ site.func.params.length)
    (stands : state.frame.At f site) (holds : Holds state.frame.slots scope cells)
    (given : state.frame.args = args.toArray) (enough : index + names.length ≤ args.length)
    (grows : (site.bindParams names index scope).1.func.Grows f)
    (later : ∀ frame : Frame, ∀ fewer ≤ left, frame.At f (site.bindParams names index scope).1 →
      frame.depth = state.frame.depth →
      Holds frame.slots (site.bindParams names index scope).2 ((names.zip (args.drop index)).reverse ++ cells) →
      Agrees m limits fewer { state with frame := frame } evaluation after) :
    Agrees m limits left state evaluation after := by
  induction names generalizing index site scope cells state left with
  | nil => exact later state.frame left (Nat.le_refl _) stands rfl holds
  | cons name names ih =>
    rw [List.length_cons] at count enough
    have apart := ready.next_notMem
    obtain ⟨waiting, said, draft, slots⟩ := ready
    obtain ⟨bound, binds, slots⟩ := draft.bindParam name index slots (by omega)
    have distinct := List.nodup_cons.mpr ⟨apart, distinct⟩
    obtain ⟨_, grown, _⟩ := bound.bindParams names (index + 1) slots distinct (by rw [binds.params]; omega)
    have inside : index < args.length := by omega
    have reads : state.frame.read (.param index) = .ok args[index] := by
      simp [Frame.read, given, inside]
    refine .store (stands.addSlot draft.shape.arranged name) (draft.shape.addSlot name) (grown.trans grows) reads ?_
    intro frame fewer _ stands keeps written
    have holds : Holds frame.slots ((name, site.next) :: scope) ((name, args[index]) :: cells) := by
      rw [written]
      exact .cons (Slots.read_write_self _ _ _) (holds.write_other _ apart)
    refine ih (index + 1) ⟨waiting, said, bound, slots⟩ distinct (by rw [binds.params]; omega) stands holds
      ((keeps 0).args.trans given)
      (by omega) grows ?_
    intro frame' fewer' _ stands depth holds
    refine later frame' fewer' (by omega) stands (depth.trans (keeps 0).depth) ?_
    rw [List.drop_eq_getElem_cons inside, List.zip_cons_cons, List.reverse_cons, List.append_assoc]
    exact holds

end Agrees

variable {c : Context} {proto : Prototype} {body : Expr}

/-- A lowered function has been entered and runs to its end as evaluation of its body does. -/
theorem Lowering.Attempt.evaluates (attempt : Lowering.Attempt c proto body) {value : Operand}
    (done : attempt.result = .ok value)
    (resolved : (c.defining (attempt.before ++ attempt.meanwhile) proto attempt.scope).Resolved m)
    (resolves : ∀ name, e.resolve name = m.find? name) {args : List Double}
    (count : args.length = proto.params.length) {left : Nat} (enough : left ≤ e.fuel) (port : Port σ)
    {outcome : Outcome σ}
    (runs : run e.module e.limits left ⟨.start (attempt.function value) args e.depth 0
      ((attempt.function value).blockInsts 0), [], port⟩ = outcome) (finishes : outcome.cutShort = false) :
    e.function proto.params body args port = some (outcome.result, outcome.port) := by
  obtain ⟨start, opened, slots, distinct⟩ := attempt.startDraft
  have code := attempt.code value done m resolved
  obtain ⟨more, draft, onward, _⟩ := code.draft start slots
  have arranged := attempt.arranged done
  have returns : attempt.last.func.Grows (attempt.function value) := draft.shape.grows_push rfl ""
  have simulates := simulates_one (code.simulates resolves arranged ⟨_, _, start, slots⟩ distinct returns)
  have agrees : Agrees e.module e.limits left ⟨.start (attempt.function value) args e.depth 0
      ((attempt.function value).blockInsts 0), [], port⟩ (e.expr body (proto.params.zip args).reverse)
      fun result _ y => y.At (attempt.function value) attempt.last ∧ y.read value = .ok result := by
    obtain ⟨ids, split, all⟩ := arranged.slotsFirst
    refine .slots ids split all fun cleared fewer bound => ?_
    have stands : Frame.At { Frame.start (attempt.function value) args e.depth 0 [] with
        slots := cleared, rest := (attempt.function value).code 0 } (attempt.function value)
        (Site.opened attempt.name attempt.params) :=
      ⟨rfl, rfl, rfl, Array.size_replicate⟩
    have ready : (Site.opened attempt.name attempt.params).Ready [] :=
      ⟨_, _, Site.opened_draft _ _, List.forall_mem_nil _⟩
    have grows : ((Site.opened attempt.name attempt.params).bindParams proto.params 0 []).1.func.Grows
        (attempt.function value) := by
      rw [attempt.opens]
      exact onward.grows.trans returns
    refine Agrees.bindParams proto.params 0 ready .nil (Nat.le_of_eq ((Nat.zero_add _).trans attempt.count.symm))
      stands .nil rfl (Nat.le_of_eq ((Nat.zero_add _).trans count.symm)) grows ?_
    intro frame fewer' bound' stands depth holds
    rw [attempt.opens] at stands holds
    rw [List.drop_zero, List.append_nil] at holds
    refine (simulates fewer' (by omega) ⟨frame, [], port⟩ _ depth.symm stands holds).mono ?_
    rintro result cells y ⟨⟨stands, _, _⟩, reads⟩
    exact ⟨stands, reads⟩
  rw [Evaluator.function]
  rcases agrees with cut | ⟨fault, ends, same⟩ | ⟨result, cells, port', frame, rest, _, same, goesOn, stands, reads⟩
  · rw [runs, finishes] at cut
    contradiction
  · rw [runs] at ends same
    simp only [same, ends]
    rfl
  · rw [runs] at goesOn
    obtain ⟨found, after, waits, _⟩ := stands.next draft.shape rfl (.refl _)
    rw [← stands.func] at found
    have ends : State.step e.module e.limits ⟨frame, [], port'⟩ attempt.last.func.insts.size after =
        .done (.ok result) port' := by
      rw [State.step_eq found after]
      simp only [State.exec, Frame.read_rest, reads]
      rfl
    cases rest with
    | zero =>
      have cut : (run e.module e.limits 0 ⟨frame, [], port'⟩).cutShort = true := run_zero waits
      rw [← goesOn, finishes] at cut
      contradiction
    | succ rest =>
      have last : run e.module e.limits (rest + 1) ⟨frame, [], port'⟩ = _ := run_done waits ends
      rw [goesOn, last, same]
      rfl

/-- Calling a function that has a body starts with all of its entry. -/
theorem Machine.enter_body {limits : Limits} {port : Port σ} {depth id : Nat} {args : List Double}
    (found : m.raw? id = some f) (live : f.removed = false) (arranged : f.Arranged)
    (count : f.params.length = args.length) (shallow : depth ≤ limits.callDepth) :
    enter m limits port depth id args = (.ok (.body (.start f args depth 0 (f.blockInsts 0))), port) := by
  have body : f.isDeclaration = false := by
    have entry := arranged.entry
    unfold Function.entry? at entry
    unfold Function.isDeclaration
    cases same : f.layout with
    | nil => simp [same] at entry
    | cons block layout => rfl
  obtain ⟨block, first, _⟩ := Option.map_eq_some_iff.mp arranged.entryName
  have insts : f.blockInsts 0 = block.insts := by rw [Function.blockInsts, first]
  simp [enter, Nat.not_lt.mpr shallow, found, live, count, body, enterBody, arranged.entry, first, insts]

/-- The functions that lowering has found are still found by their names once the definition is finished. -/
theorem Lowering.Attempt.resolved (attempt : Lowering.Attempt c proto body) (pristine : c.Pristine) {value : Operand}
    (done : attempt.result = .ok value) :
    (c.defining (attempt.before ++ attempt.meanwhile) proto attempt.scope).Resolved
      (Lowering.definition proto body c).2.builder.module := by
  have heads := attempt.heads_finished (.refl c) pristine done
  intro name id found
  rw [Attempt.builder_defining] at found ⊢
  rw [Module.find?_congr heads, Module.paramCount_congr heads]
  exact ⟨(Context.find?_eq_some.mp found).2, rfl⟩

/-- Lowering preserves meaning: unless it is cut short, the run of a lowered function gives the result and writes
the output that evaluating its body on the tree does, but for the failure of a last flush. -/
theorem run_lowered_eq_evaluation {after : Context} {id : Nat}
    (reachable : Context.Reachable [] (fun _ => True) c)
    (lowered : Lowering.definition proto body c = (.ok id, after))
    (holds : m.raw? id = after.builder.module.raw? id) {limits : Limits} {sink : σ} {args : List Double}
    (count : args.length = proto.params.length)
    (finishes : (Machine.call m limits limits.steps (.new sink) 0 id args).cutShort = false)
    {fuel : Nat} (enough : limits.steps ≤ fuel) :
    ∃ result port,
      Evaluator.function ⟨m, limits, after.builder.module.find?, 0, fuel⟩ proto.params body args (.new sink) =
        some (result, port) ∧
      (runFunction m limits sink id args).output = port.output ∧
      (runFunction m limits sink id args).sink = (Output.flush port.sink).2 ∧
      (runFunction m limits sink id args).result =
        match (Output.flush port.sink).1 with
        | none => result
        | some reason => .error (.sinkFailed reason) := by
  have sound := reachable.sound
  rcases Lowering.definition_runs sound.registered sound.pristine proto body with
    ⟨reason, _, runs⟩ | ⟨⟨attempt⟩⟩
  · rw [runs c (.refl c)] at lowered
    cases lowered
  · have runs := attempt.runs c (.refl c) sound.pristine
    have same : after = (Lowering.definition proto body c).2 := by rw [lowered]
    rw [lowered] at runs
    cases result : attempt.result with
    | error reason =>
      rw [result] at runs
      cases runs
    | ok value =>
      rw [result] at runs
      obtain rfl : id = attempt.id := by
        injection runs with first
        injection first
      have resolved := attempt.resolved sound.pristine result
      rw [← same] at resolved
      have found := attempt.raw?_finished (.refl c) sound.pristine result attempt.id
      rw [← same, if_pos rfl, reachable.passes_eq, ← holds] at found
      obtain ⟨_, grows⟩ := attempt.wellFormed result
      have params : (attempt.function value).params.length = args.length :=
        (congrArg List.length grows.params).trans (attempt.count.trans count.symm)
      have called : Machine.call m limits limits.steps (.new sink) 0 attempt.id args = run m limits limits.steps
          ⟨.start (attempt.function value) args 0 0 ((attempt.function value).blockInsts 0), [], .new sink⟩ := by
        rw [Machine.call, enter_body found grows.removed (attempt.arranged result) params (Nat.zero_le _)]
        rfl
      rw [runFunction_eq_call]
      generalize Machine.call m limits limits.steps (.new sink) 0 attempt.id args = outcome at finishes called ⊢
      exact ⟨outcome.result, outcome.port,
        attempt.evaluates result resolved (fun _ => rfl) count enough (.new sink) called.symm finishes,
        outcome.output_flushed, outcome.sink_flushed, outcome.result_flushed⟩

/-- `var y = 0 in (for i = x, i < 1 in y = y + i) + (if y then y else x)`. -/
def sumFrom : Expr :=
  .bind [("y", .number .zero)] (.binary '+'
    (.loop "i" (.var "x") (.binary '<' (.var "i") (.number .one)) none
      (.binary '=' (.var "y") (.binary '+' (.var "y") (.var "i"))))
    (.cond (.var "y") (.var "y") (.var "x")))

/-- The context after `def f(x)` with this body has been lowered into an empty module. -/
def sumFromContext : Context := (Lowering.definition (.function "f" ["x"]) sumFrom (.new (.new "m" []))).2

theorem run_lowered_eq_evaluation_sumFrom : ∃ result port,
    Evaluator.function ⟨sumFromContext.builder.module, ⟨100, 10⟩, sumFromContext.builder.module.find?, 0, 100⟩ ["x"]
      sumFrom [.zero] (.new Sink.unbounded) = some (result, port) ∧
    (runFunction sumFromContext.builder.module ⟨100, 10⟩ Sink.unbounded 0 [.zero]).output = port.output ∧
    (runFunction sumFromContext.builder.module ⟨100, 10⟩ Sink.unbounded 0 [.zero]).sink =
      (Output.flush port.sink).2 ∧
    (runFunction sumFromContext.builder.module ⟨100, 10⟩ Sink.unbounded 0 [.zero]).result =
      match (Output.flush port.sink).1 with
      | none => result
      | some reason => .error (.sinkFailed reason) :=
  run_lowered_eq_evaluation (.new "m") (Prod.ext (by cbv) rfl) rfl rfl (by decide +kernel) (Nat.le_refl 100)

end Kaleidoscope
