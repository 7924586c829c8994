import Kaleidoscope.Proofs.Machine.Run

/-!
What a call does next, as long as nothing goes wrong, without regard to the calls around it.
-/

namespace Kaleidoscope

theorem Double.truthy_ofBool (holds : Bool) : (Double.ofBool holds).truthy = holds := by
  cases holds <;> decide

namespace Machine

open Kaleidoscope.Flow

namespace Frame

variable {x y : Frame} {id : Nat} {rest : List Nat} {instr : Instr} {value : Double}

/-- What an instruction computes in a frame. -/
inductive Computes (x : Frame) : Instr → Double → Prop where
  | arith {op : Arith} {lhs rhs : Operand} {l r : Double} (left : x.read lhs = .ok l) (right : x.read rhs = .ok r) :
      Computes x (.arith op lhs rhs) (op.apply l r)
  | compare {rel : Comparison} {lhs rhs : Operand} {l r : Double} (left : x.read lhs = .ok l)
      (right : x.read rhs = .ok r) : Computes x (.compare rel lhs rhs) (.ofBool (rel.holds l r))
  | toReal {flag : Operand} {value : Double} (reads : x.read flag = .ok value) :
      Computes x (.toReal flag) (.ofBool value.truthy)
  | load {slot : Nat} : Computes x (.load (.inst slot)) (x.slots.read slot)

theorem Computes.plain (computes : x.Computes instr value) : instr.isSlot = false := by
  cases computes <;> rfl

theorem Computes.exec {σ : Type} [Output σ] {m : Module} {limits : Limits} {state : State σ}
    (computes : state.frame.Computes instr value)
    (id : Nat) (rest : List Nat) :
    { state with frame := { state.frame with rest := rest } }.exec m limits id instr =
      .running { state with frame := { state.frame with rest := rest }.setValue id value } := by
  cases computes with
  | arith left right => simp only [State.exec, read_rest, left, right]
  | compare left right => simp only [State.exec, read_rest, left, right]
  | toReal reads => simp only [State.exec, read_rest, reads]
  | load => rfl

/-- What a frame does next. -/
inductive Action where
  | move (next : Frame)
  /-- Goes to the start of a block. -/
  | jump (next : Frame)
  /-- Calls a function; `next` waits for the result of the instruction `id`. -/
  | call (next : Frame) (id callee : Nat) (args : List Double)
  | ret (value : Double)

/-- Where a frame goes on in another block. -/
def landing (x : Frame) (dest : Nat) : Frame := { x with block := dest, rest := x.func.blockInsts dest }

/-- The instruction `id`, with `rest` after it in its block, makes the frame do this. -/
inductive Performs (x : Frame) (id : Nat) (rest : List Nat) : Instr → Action → Prop where
  | compute {instr : Instr} {value : Double} (computes : x.Computes instr value) :
      Performs x id rest instr (.move ({ x with rest := rest }.setValue id value))
  | slot : Performs x id rest .slot (.move ({ x with rest := rest }.writeSlot id .zero))
  | store {operand : Operand} {slot : Nat} {value : Double} (reads : x.read operand = .ok value) :
      Performs x id rest (.store operand (.inst slot)) (.move ({ x with rest := rest }.writeSlot slot value))
  | jump {dest : Nat} (inside : dest < x.func.blocks.size) :
      Performs x id rest (.jump dest) (.jump (x.landing dest))
  | branch {flag : Operand} {yes no dest : Nat} {value : Double} (reads : x.read flag = .ok value)
      (chosen : dest = if value.truthy then yes else no) (inside : dest < x.func.blocks.size) :
      Performs x id rest (.branch flag yes no) (.jump (x.landing dest))
  | call {callee : Nat} {args : List Operand} {values : List Double} (reads : x.readAll args = .ok values) :
      Performs x id rest (.call callee args) (.call { x with rest := rest } id callee values)
  | ret {operand : Operand} {value : Double} (reads : x.read operand = .ok value) :
      Performs x id rest (.ret operand) (.ret value)

/-- The frame does this with its next instruction. -/
def Acts (x : Frame) (action : Action) : Prop :=
  ∃ id rest instr, x.rest = id :: rest ∧ x.func.instr? id = some instr ∧ x.Performs id rest instr action

end Frame

private theorem goto_eq_landing {x : Frame} {dest : Nat} (rest : List Nat) (inside : dest < x.func.blocks.size) :
    { x with rest := rest }.goto dest = .ok (x.landing dest) := by
  have found : x.func.block? dest = some x.func.blocks[dest] := Array.getElem?_eq_getElem inside
  simp only [Frame.goto, found, Frame.landing, Function.blockInsts]

variable {σ : Type} [Output σ]

/-- What an action makes of a state. -/
def Frame.Action.effect (m : Module) (limits : Limits) (state : State σ) : Frame.Action → Progress σ
  | .move next => .running { state with frame := next }
  | .jump next => .running { state with frame := next }
  | .call next id callee args => { state with frame := next }.call m limits id callee args
  | .ret value => state.returnValue value

variable {m : Module} {limits : Limits} {state : State σ}

/-- An action is all that matters for the next step of a run. -/
theorem Frame.Performs.step {id : Nat} {rest : List Nat} {instr : Instr} {action : Frame.Action}
    (found : state.frame.func.instr? id = some instr) (performs : state.frame.Performs id rest instr action) :
    state.step m limits id rest = action.effect m limits state := by
  rw [State.step_eq found rest]
  cases performs with
  | compute computes => exact computes.exec id rest
  | slot => rfl
  | store reads => simp only [State.exec, read_rest, reads, Action.effect]
  | jump inside =>
    simp only [State.exec, goto_eq_landing rest inside]
    rfl
  | branch reads chosen inside =>
    subst chosen
    simp only [State.exec, read_rest, reads, goto_eq_landing rest inside]
    rfl
  | call reads => simp only [State.exec, readAll_rest, reads, Action.effect]
  | ret reads =>
    simp only [State.exec, read_rest, reads]
    rfl

end Machine

end Kaleidoscope
