import Kaleidoscope.Flow.Instr

/-!
Functions as control-flow graphs. Instructions and blocks are numbered in order of creation and never
renumbered; the layout says which blocks belong to the function and in what order.
-/

namespace Kaleidoscope.Flow

structure Inst where
  instr : Instr
  /-- A hint for the printed name of the result. -/
  name : String
  deriving DecidableEq

structure Block where
  name : String
  insts : List Nat
  deriving DecidableEq

structure Function where
  name : String
  params : List String
  insts : Array Inst
  blocks : Array Block
  layout : List Nat
  /-- A removed function keeps its number and can no longer be found. -/
  removed : Bool
  deriving DecidableEq

namespace Function

def declared (name : String) (params : List String) : Function :=
  ⟨name, params, #[], #[], [], false⟩

def isDeclaration (f : Function) : Bool := f.layout.isEmpty

def entry? (f : Function) : Option Nat := f.layout.head?

def inst? (f : Function) (id : Nat) : Option Inst := f.insts[id]?

def instr? (f : Function) (id : Nat) : Option Instr := (f.inst? id).map Inst.instr

def block? (f : Function) (id : Nat) : Option Block := f.blocks[id]?

def blockInsts (f : Function) (id : Nat) : List Nat :=
  match f.block? id with
  | some block => block.insts
  | none => []

/-- The instructions of the blocks in the layout, in layout order. -/
def liveInsts (f : Function) : List Nat := f.layout.flatMap f.blockInsts

def operandsOf (f : Function) (id : Nat) : List Operand :=
  match f.instr? id with
  | some instr => instr.operands
  | none => []

/-- Every use of an instruction's result by a live instruction, repetitions included. -/
def usedIds (f : Function) : List Nat :=
  f.liveInsts.flatMap fun id => (f.operandsOf id).filterMap Operand.inst?

def replaceAllUses (f : Function) (id : Nat) (value : Operand) : Function :=
  { f with insts := f.insts.map fun inst =>
      { inst with instr := inst.instr.mapOperands (Operand.replace id value) } }

/-- Takes instructions out of their blocks. -/
def unlink (f : Function) (dead : List Nat) : Function :=
  { f with blocks := f.blocks.map fun block =>
      { block with insts := block.insts.filter (!dead.contains ·) } }

/-- Adds an empty block at the end of the layout. -/
def addBlock (f : Function) (name : String) : Nat × Function :=
  let id := f.blocks.size
  (id, { f with blocks := f.blocks.push ⟨name, []⟩, layout := f.layout ++ [id] })

/-- Adds an instruction at the end of a block. -/
def addInst (f : Function) (block : Nat) (inst : Inst) : Nat × Function :=
  let id := f.insts.size
  (id,
    { f with
      insts := f.insts.push inst
      blocks := f.blocks.modify block fun b => { b with insts := b.insts ++ [id] } })

def isSlot (f : Function) (id : Nat) : Bool :=
  match f.instr? id with
  | some instr => instr.isSlot
  | none => false

/-- Adds a slot to a block, after the slots the block starts with. -/
def addSlotTo (f : Function) (block : Nat) (name : String) : Nat × Function :=
  let id := f.insts.size
  let slots := (f.blockInsts block).takeWhile f.isSlot
  let others := (f.blockInsts block).dropWhile f.isSlot
  (id,
    { f with
      insts := f.insts.push ⟨.slot, name⟩
      blocks := f.blocks.modify block fun b => { b with insts := slots ++ id :: others } })

/-- Adds a slot to the first block, which is made if there is none. -/
def addSlot (f : Function) (name : String) : Nat × Function :=
  match f.entry? with
  | some entry => f.addSlotTo entry name
  | none =>
    let (entry, f) := f.addBlock "entry"
    f.addSlotTo entry name

/-- Puts a block last in the layout. -/
def moveToEnd (f : Function) (block : Nat) : Function :=
  { f with layout := f.layout.filter (· != block) ++ [block] }

end Function

end Kaleidoscope.Flow
