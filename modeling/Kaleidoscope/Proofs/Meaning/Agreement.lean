import Kaleidoscope.Proofs.Meaning.Evaluation

/-!
Runs that do what an evaluation does. A run that has enough steps gets to the end of the evaluated part with the
same output, or ends with the same fault.
-/

namespace Kaleidoscope

open Kaleidoscope.Flow Kaleidoscope.Machine

namespace Evaluation

variable {σ α β : Type}

theorem bind_apply (x : Evaluation σ α) (k : α → Evaluation σ β) (cells : Cells) (port : Port σ) :
    (x >>= k) cells port = match x cells port with
      | none => none
      | some (.error fault, port) => some (.error fault, port)
      | some (.ok (value, cells), port) => k value cells port := by
  simp only [bind, StateT.bind, ExceptT.bind, ExceptT.mk]
  cases x cells port with
  | none => rfl
  | some outcome =>
    obtain ⟨result, port⟩ := outcome
    cases result <;> rfl

theorem bind_of_apply {x : Evaluation σ α} {k : α → Evaluation σ β} {value : α} {cells changed : Cells}
    (same : x cells = (pure value : Evaluation σ α) changed) : (x >>= k) cells = k value changed := by
  funext port
  rw [bind_apply, same]
  rfl

private theorem get_apply (cells : Cells) :
    (get : Evaluation σ Cells) cells = (pure cells : Evaluation σ Cells) cells :=
  rfl

theorem read_apply {name : String} {value : Double} {cells : Cells} (found : cells.lookup name = some value) :
    read name cells = (pure value : Evaluation σ Double) cells := by
  rw [read, bind_of_apply (get_apply cells), found]

theorem assign_apply {name : String} {held : Double} {cells : Cells} (value : Double)
    (found : cells.lookup name = some held) :
    assign name value cells = (pure () : Evaluation σ Unit) (cells.set name value) := by
  rw [assign, bind_of_apply (get_apply cells), found]
  rfl

private theorem withVariable_apply (name : String) (value : Double) (body : Evaluation σ α) (cells : Cells) :
    withVariable name value body cells =
      (body >>= fun result => do modify List.tail; return result : Evaluation σ α) ((name, value) :: cells) :=
  rfl

end Evaluation

variable {σ : Type} [Output σ]

/-- A run with `left` steps left agrees with an evaluation: it is cut short, it ends with the same fault, or it gets
to a frame of which `after` holds. -/
def Agrees {α : Type} (m : Module) (limits : Limits) (left : Nat) (state : State σ)
    (evaluation : Port σ → Option (Except Fault (α × Cells) × Port σ)) (after : α → Cells → Frame → Prop) : Prop :=
  (run m limits left state).cutShort = true ∨
    (∃ fault, (run m limits left state).result = .error fault ∧
      evaluation state.port = some (.error fault, (run m limits left state).port)) ∨
    ∃ value cells port frame, ∃ rest ≤ left, evaluation state.port = some (.ok (value, cells), port) ∧
      run m limits left state = run m limits rest ⟨frame, state.callers, port⟩ ∧ after value cells frame

namespace Agrees

variable {α β : Type} {m : Module} {limits : Limits} {left : Nat} {state : State σ} {cells : Cells}
  {after : β → Cells → Frame → Prop}

theorem pure {value : β} (holds : after value cells state.frame) :
    Agrees m limits left state ((Pure.pure value : Evaluation σ β) cells) after :=
  .inr (.inr ⟨value, cells, state.port, state.frame, left, Nat.le_refl _, rfl, rfl, holds⟩)

theorem bind {x : Evaluation σ α} {k : α → Evaluation σ β} {middle : α → Cells → Frame → Prop}
    (first : Agrees m limits left state (x cells) middle)
    (later : ∀ value cells port frame, ∀ rest ≤ left, middle value cells frame →
      Agrees m limits rest ⟨frame, state.callers, port⟩ (k value cells) after) :
    Agrees m limits left state ((x >>= k) cells) after := by
  rcases first with cut | ⟨fault, ends, same⟩ | ⟨value, cells', port, frame, rest, fewer, same, goesOn, holds⟩
  · exact .inl cut
  · exact .inr (.inl ⟨fault, ends, by rw [Evaluation.bind_apply, same]⟩)
  · have next := later value cells' port frame rest fewer holds
    rw [Agrees, Evaluation.bind_apply, same, goesOn]
    rcases next with cut | ⟨fault, ends, same⟩ | ⟨value, cells, port, frame, rest', fewer', same, goesOn, holds⟩
    · exact .inl cut
    · exact .inr (.inl ⟨fault, ends, same⟩)
    · exact .inr (.inr ⟨value, cells, port, frame, rest', Nat.le_trans fewer' fewer, same, goesOn, holds⟩)

theorem mono {x : Evaluation σ β} {stronger : β → Cells → Frame → Prop}
    (agrees : Agrees m limits left state (x cells) stronger)
    (weaken : ∀ value cells frame, stronger value cells frame → after value cells frame) :
    Agrees m limits left state (x cells) after := by
  refine agrees.imp id (Or.imp id ?_)
  rintro ⟨value, cells, port, frame, rest, fewer, same, goesOn, holds⟩
  exact ⟨value, cells, port, frame, rest, fewer, same, goesOn, weaken value cells frame holds⟩

/-- A new variable is gone again once the evaluation with it is over. -/
theorem withVariable {x : Evaluation σ β} {name : String} {value : Double}
    (agrees : Agrees m limits left state (x ((name, value) :: cells))
      fun result cells frame => after result cells.tail frame) :
    Agrees m limits left state (Evaluation.withVariable name value x cells) after := by
  rw [Evaluation.withVariable_apply]
  apply agrees.bind
  intro result cells port frame rest _ holds
  exact .pure holds

/-- What agrees once a result has been packed agreed before. -/
theorem unpack {x : Evaluation σ α} {pack : α → β}
    (agrees : Agrees m limits left state ((x >>= fun value => Pure.pure (pack value)) cells) after) :
    Agrees m limits left state (x cells) fun value cells frame => after (pack value) cells frame := by
  unfold Agrees at agrees
  rw [Evaluation.bind_apply] at agrees
  rcases agrees with cut | ⟨fault, ends, same⟩ | ⟨value, cells', port, frame, rest, fewer, same, goesOn, holds⟩
  · exact .inl cut
  · refine .inr (.inl ⟨fault, ends, ?_⟩)
    split at same
    · contradiction
    · next fault' port found =>
      rw [found]
      cases same
      rfl
    · cases same
  · refine .inr (.inr ?_)
    split at same
    · contradiction
    · cases same
    · next value' _ _ found =>
      cases same
      exact ⟨value', _, _, frame, rest, fewer, found, goesOn, holds⟩

/-- An instruction that only changes the frame. -/
theorem step {evaluation : Port σ → Option (Except Fault (β × Cells) × Port σ)} {frame : Frame} {id : Nat}
    {rest : List Nat} (goesOn : state.frame.rest = id :: rest)
    (steps : state.step m limits id rest = .running { state with frame := frame })
    (later : ∀ fewer < left, Agrees m limits fewer { state with frame := frame } evaluation after) :
    Agrees m limits left state evaluation after := by
  cases left with
  | zero => exact .inl (run_zero goesOn)
  | succ left =>
    rw [Agrees, run_running goesOn steps]
    rcases later left (Nat.lt_succ_self left) with
      cut | ends | ⟨value, cells, port, frame, rest, fewer, same, reached, holds⟩
    · exact .inl cut
    · exact .inr (.inl ends)
    · exact .inr (.inr ⟨value, cells, port, frame, rest, Nat.le_succ_of_le fewer, same, reached, holds⟩)

/-- The body of a called function runs as it would on its own, with no less fuel. -/
theorem body {caller : Caller} {outer : List Caller} {frame : Frame} {port : Port σ} {fuel : Nat}
    {evaluation : Option (Except Fault (Double × Cells) × Port σ)} (enough : left ≤ fuel)
    (evaluated : (run m limits fuel ⟨frame, [], port⟩).cutShort = false →
      evaluation = some ((run m limits fuel ⟨frame, [], port⟩).result.map fun value => (value, cells),
        (run m limits fuel ⟨frame, [], port⟩).port)) :
    (run m limits left ⟨frame, caller :: outer, port⟩).cutShort = true ∨
      (∃ fault, (run m limits left ⟨frame, caller :: outer, port⟩).result = .error fault ∧
        evaluation = some (.error fault, (run m limits left ⟨frame, caller :: outer, port⟩).port)) ∨
      ∃ value port', ∃ rest ≤ left, evaluation = some (.ok (value, cells), port') ∧
        run m limits left ⟨frame, caller :: outer, port⟩ =
          run m limits rest ⟨caller.frame.setValue caller.result value, outer, port'⟩ := by
  have isolated := run_above m limits left ⟨frame, [], port⟩ caller outer
  cases cut : (run m limits left ⟨frame, [], port⟩).cutShort with
  | true =>
    obtain ⟨limit, ends⟩ := Outcome.cutShort_iff.mp cut
    rw [ends] at isolated
    exact .inl (Outcome.cutShort_iff.mpr ⟨limit, isolated.1⟩)
  | false =>
    obtain ⟨sameResult, samePort⟩ := run_more enough cut
    have finished : (run m limits fuel ⟨frame, [], port⟩).cutShort = false := by
      rw [← cut, Outcome.cutShort, Outcome.cutShort, sameResult]
    have known := evaluated finished
    rw [sameResult, samePort] at known
    cases result : (run m limits left ⟨frame, [], port⟩).result with
    | error fault =>
      rw [result] at isolated known
      obtain ⟨ends, output⟩ := isolated
      exact .inr (.inl ⟨fault, ends, known.trans (by rw [← output]; rfl)⟩)
    | ok value =>
      rw [result] at isolated known
      obtain ⟨rest, fewer, goesOn⟩ := isolated
      exact .inr (.inr ⟨value, _, rest, fewer, known, goesOn⟩)

/-- A call on the machine agrees with the call in an evaluation that has no less fuel. -/
theorem call {evaluator : Evaluator σ} (enough : left ≤ evaluator.fuel) (depth : evaluator.depth = state.frame.depth)
    {name hint : String} {id callee : Nat} {rest : List Nat} {args : List Operand} {values : List Double}
    (resolved : evaluator.resolve name = some callee) (goesOn : state.frame.rest = id :: rest)
    (found : state.frame.func.inst? id = some ⟨.call callee args, hint⟩)
    (reads : state.frame.readAll args = .ok values) :
    Agrees evaluator.module evaluator.limits left state (evaluator.call name values cells)
      fun value cells' frame =>
        cells' = cells ∧ frame = { state.frame with rest := rest }.setValue id value := by
  cases left with
  | zero => exact .inl (run_zero goesOn)
  | succ left =>
    have steps : state.step evaluator.module evaluator.limits id rest =
        { state with frame := { state.frame with rest := rest } }.call evaluator.module evaluator.limits id callee
          values := by
      simp only [State.step, found, State.exec, Frame.readAll_rest, reads]
    have evaluated : ∀ outcome : Outcome σ, Machine.call evaluator.module evaluator.limits evaluator.fuel state.port
          (state.frame.depth + 1) callee values = outcome → outcome.cutShort = false →
        evaluator.call name values cells state.port =
          some (outcome.result.map fun value => (value, cells), outcome.port) := by
      intro outcome same finished
      simp only [Evaluator.call, resolved, depth, same, finished]
      rfl
    simp only [Machine.call] at evaluated
    simp only [State.call] at steps
    generalize enter evaluator.module evaluator.limits state.port (state.frame.depth + 1) callee values =
      entered at steps evaluated
    obtain ⟨result, port⟩ := entered
    cases result with
    | error fault =>
      rw [Agrees, run_done goesOn steps]
      cases cut : Outcome.cutShort ⟨.error fault, port, 0⟩ with
      | true => exact .inl cut
      | false => exact .inr (.inl ⟨fault, rfl, evaluated _ rfl cut⟩)
    | ok entry =>
      cases entry with
      | value value =>
        rw [Agrees, run_running goesOn steps]
        exact .inr (.inr ⟨value, cells, port, _, left, Nat.le_succ left, evaluated _ rfl rfl, rfl, rfl, rfl⟩)
      | body frame =>
        rw [Agrees, run_running goesOn steps]
        rcases body (Nat.le_of_succ_le enough) (evaluated _ rfl) with
          cut | ends | ⟨value, port', rest, fewer, same, goesOn⟩
        · exact .inl cut
        · exact .inr (.inl ends)
        · exact .inr (.inr ⟨value, cells, port', _, rest, Nat.le_succ_of_le fewer, same, goesOn, rfl, rfl⟩)

end Agrees

end Kaleidoscope
