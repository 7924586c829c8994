import Kaleidoscope.Flow.Module
import Kaleidoscope.Machine.Fault

/-!
One active call: where it stands, the results of its instructions and the contents of its slots.
-/

namespace Kaleidoscope.Machine

open Kaleidoscope.Flow

/-- Numbers in slots. A slot that was never written holds zero. -/
structure Slots where
  cells : Array Double

namespace Slots

def read (slots : Slots) (id : Nat) : Double := slots.cells.getD id .zero

def write (slots : Slots) (id : Nat) (value : Double) : Slots :=
  let size := slots.cells.size
  if id < size then
    ⟨slots.cells.setIfInBounds id value⟩
  else
    ⟨(slots.cells ++ Array.replicate (id - size) Double.zero).push value⟩

theorem read_write (slots : Slots) (id other : Nat) (value : Double) :
    (slots.write id value).read other = if other = id then value else slots.read other := by
  unfold write read
  simp only [Array.getD_eq_getD_getElem?]
  split
  · next inside =>
    by_cases same : other = id
    · subst other
      simp [inside]
    · simp [same, Ne.symm same]
  · next outside =>
    have last : (slots.cells ++ Array.replicate (id - slots.cells.size) Double.zero).size = id := by
      simp only [Array.size_append, Array.size_replicate]
      omega
    simp only [Array.getElem?_push, last]
    split
    · rfl
    · by_cases before : other < slots.cells.size
      · simp [Array.getElem?_append, before]
      · have missing : slots.cells[other]? = none := by simpa using before
        simp only [Array.getElem?_append, before, if_false, missing, Option.getD_none,
          Array.getElem?_replicate]
        split <;> rfl

end Slots

structure Frame where
  func : Function
  args : Array Double
  /-- How many calls are active below this one. -/
  depth : Nat
  values : Array Double
  slots : Slots
  block : Nat
  /-- The instructions of the block still to run. -/
  rest : List Nat

namespace Frame

/-- A call about to run the first instruction of `block`. -/
def start (func : Function) (args : List Double) (depth : Nat) (block : Nat) (insts : List Nat) :
    Frame where
  func := func
  args := args.toArray
  depth := depth
  values := Array.replicate func.insts.size .zero
  slots := ⟨Array.replicate func.insts.size .zero⟩
  block := block
  rest := insts

/-- The value of an operand. A parameter that was not passed reads as a NaN. -/
def read (frame : Frame) : Operand → Except Fault Double
  | .const value => .ok value
  | .param index => .ok (frame.args.getD index .nan)
  | .inst id =>
    match frame.values[id]? with
    | some value => .ok value
    | none => .error .dangling
  | .undef => .error (.undefinedValue frame.func.name)

def readAll (frame : Frame) : List Operand → Except Fault (List Double)
  | [] => .ok []
  | operand :: operands =>
    match frame.read operand with
    | .error fault => .error fault
    | .ok value =>
      match readAll frame operands with
      | .error fault => .error fault
      | .ok values => .ok (value :: values)

/-- What a load from `place` yields. -/
def readPlace (frame : Frame) : Operand → Except Fault Double
  | .inst id => .ok (frame.slots.read id)
  | other => frame.read other

def setValue (frame : Frame) (id : Nat) (value : Double) : Frame :=
  { frame with values := frame.values.setIfInBounds id value }

def writeSlot (frame : Frame) (id : Nat) (value : Double) : Frame :=
  { frame with slots := frame.slots.write id value }

/-- Goes on at the start of a block. -/
def goto (frame : Frame) (dest : Nat) : Except Fault Frame :=
  match frame.func.block? dest with
  | some block => .ok { frame with block := dest, rest := block.insts }
  | none => .error .dangling

def blockName (frame : Frame) : String :=
  match frame.func.block? frame.block with
  | some block => block.name
  | none => ""

/-- The fault of a block that ends without telling what runs next. -/
def fallsThrough (frame : Frame) : Fault := .fallsThrough frame.blockName frame.func.name

end Frame

end Kaleidoscope.Machine
