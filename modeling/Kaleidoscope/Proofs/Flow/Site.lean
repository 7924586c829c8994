import Kaleidoscope.Proofs.Flow.WellFormed

/-!
A function under construction, seen from its insertion point, and what each way of extending it does to the
instructions of its blocks.
-/

namespace Kaleidoscope.Flow

namespace Function

/-- The instructions of a block other than slots. -/
def code (f : Function) (block : Nat) : List Nat := (f.blockInsts block).filter (!f.isSlot ·)

section

variable (f : Function) (block other id : Nat) (inst : Inst) (name : String)

theorem instr?_addInst :
    (f.addInst block inst).2.instr? id = if id = f.insts.size then some inst.instr else f.instr? id := by
  simp only [addInst, instr?, inst?, Array.getElem?_push]
  split <;> rfl

private theorem blockInsts_modify (change : Block → Block) (insts : Array Inst) (inside : block < f.blocks.size) :
    { f with insts := insts, blocks := f.blocks.modify block change }.blockInsts other =
      if other = block then (change f.blocks[block]).insts else f.blockInsts other := by
  simp only [blockInsts, block?, Array.getElem?_modify]
  by_cases same : other = block
  · subst other
    simp [inside]
  · simp [same, Ne.symm same]

theorem blockInsts_of_lt (inside : block < f.blocks.size) : f.blockInsts block = f.blocks[block].insts := by
  simp [blockInsts, block?, inside]

theorem blockInsts_addInst (inside : block < f.blocks.size) :
    (f.addInst block inst).2.blockInsts other =
      if other = block then f.blockInsts block ++ [f.insts.size] else f.blockInsts other := by
  rw [addInst, blockInsts_modify f block other _ _ inside, blockInsts_of_lt f block inside]

theorem instr?_addSlotTo :
    (f.addSlotTo block name).2.instr? id = if id = f.insts.size then some .slot else f.instr? id := by
  simp only [addSlotTo, instr?, inst?, Array.getElem?_push]
  split <;> rfl

theorem blockInsts_addSlotTo (inside : block < f.blocks.size) :
    (f.addSlotTo block name).2.blockInsts other =
      if other = block then
        (f.blockInsts block).takeWhile f.isSlot ++ f.insts.size :: (f.blockInsts block).dropWhile f.isSlot
      else
        f.blockInsts other := by
  rw [addSlotTo, blockInsts_modify f block other _ _ inside]

theorem blockInsts_eq_nil (outside : f.blocks.size ≤ block) : f.blockInsts block = [] := by
  simp [blockInsts, block?, outside]

theorem blockInsts_addBlock : (f.addBlock name).2.blockInsts other = f.blockInsts other := by
  simp only [addBlock, blockInsts, block?, Array.getElem?_push]
  by_cases same : other = f.blocks.size
  · subst other
    simp
  · simp [same]

end

end Function

/-- A function and the block that new instructions go to. -/
structure Site where
  func : Function
  block : Nat

namespace Site

/-- What the next instruction or slot will be known as. -/
def next (site : Site) : Operand := .inst site.func.insts.size

def nextBlock (site : Site) : Nat := site.func.blocks.size

def push (site : Site) (instr : Instr) (name : String) : Site :=
  { site with func := (site.func.addInst site.block ⟨instr, name⟩).2 }

def addSlot (site : Site) (name : String) : Site := { site with func := (site.func.addSlot name).2 }

def addBlock (site : Site) (name : String) : Site := { site with func := (site.func.addBlock name).2 }

def moveToEnd (site : Site) (block : Nat) : Site := { site with func := site.func.moveToEnd block }

def goto (site : Site) (block : Nat) : Site := { site with block := block }

/-- Arithmetic; on two constants it is done at once. -/
def arith (site : Site) (op : Arith) (lhs rhs : Operand) (name : String) : Operand × Site :=
  match lhs, rhs with
  | .const l, .const r => (.const (op.apply l r), site)
  | lhs, rhs => (site.next, site.push (.arith op lhs rhs) name)

theorem arith_cases (site : Site) (op : Arith) (lhs rhs : Operand) (name : String) :
    (∃ l r, lhs = .const l ∧ rhs = .const r ∧ site.arith op lhs rhs name = (.const (op.apply l r), site)) ∨
      site.arith op lhs rhs name = (site.next, site.push (.arith op lhs rhs) name) := by
  unfold arith
  split
  · next l r => exact .inl ⟨l, r, rfl, rfl, rfl⟩
  · exact .inr rfl

section

variable (site : Site) (instr : Instr) (name : String) (block : Nat)

@[simp] theorem push_block : (site.push instr name).block = site.block := rfl

@[simp] theorem push_blocks_size : (site.push instr name).func.blocks.size = site.func.blocks.size := by
  simp [push, Function.addInst]

@[simp] theorem push_nextBlock : (site.push instr name).nextBlock = site.nextBlock :=
  push_blocks_size site instr name

@[simp] theorem push_insts_size : (site.push instr name).func.insts.size = site.func.insts.size + 1 := by
  simp [push, Function.addInst]

@[simp] theorem addSlot_block : (site.addSlot name).block = site.block := rfl

@[simp] theorem addBlock_block : (site.addBlock name).block = site.block := rfl

@[simp] theorem addBlock_blocks_size :
    (site.addBlock name).func.blocks.size = site.func.blocks.size + 1 := by
  simp [addBlock, Function.addBlock]

@[simp] theorem addBlock_nextBlock : (site.addBlock name).nextBlock = site.nextBlock + 1 :=
  addBlock_blocks_size site name

@[simp] theorem goto_func : (site.goto block).func = site.func := rfl

@[simp] theorem goto_block : (site.goto block).block = block := rfl

end

end Site

end Kaleidoscope.Flow
