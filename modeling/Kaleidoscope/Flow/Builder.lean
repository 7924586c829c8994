import Kaleidoscope.Flow.Module
import Kaleidoscope.Flow.Pass

/-!
Building functions instruction by instruction. Instructions go to the end of the block at the insertion point;
without one they are dropped.
-/

namespace Kaleidoscope.Flow

/-- A block of a function. -/
structure BlockRef where
  func : Nat
  block : Nat
  deriving DecidableEq

structure Builder where
  module : Module
  point : Option BlockRef
  /-- What is run on each finished function. -/
  passes : List Pass
  deriving DecidableEq

namespace Builder

def new (name : String) (passes : List Pass) : Builder := ⟨.empty name, none, passes⟩

/-- The function the insertion point is in. -/
def current? (b : Builder) : Option Nat := b.point.map BlockRef.func

/-- Adds an instruction at the insertion point. -/
def emit (b : Builder) (instr : Instr) (name : String) : Operand × Builder :=
  match b.point with
  | none => (.undef, b)
  | some point =>
    match b.module.raw? point.func with
    | none => (.undef, b)
    | some f =>
      (.inst f.insts.size,
        { b with
          module := b.module.modify point.func fun f => (f.addInst point.block ⟨instr, name⟩).2 })

/-- Adds an instruction whose result nobody needs. -/
def perform (b : Builder) (instr : Instr) : Builder := (b.emit instr "").2

/-- Arithmetic; on two constants it is done at once. -/
def arith (b : Builder) (op : Arith) (lhs rhs : Operand) (name : String) : Operand × Builder :=
  match lhs, rhs with
  | .const l, .const r => (.const (op.apply l r), b)
  | lhs, rhs => b.emit (.arith op lhs rhs) name

def compare (b : Builder) (rel : Comparison) (lhs rhs : Operand) (name : String) : Operand × Builder :=
  b.emit (.compare rel lhs rhs) name

def toReal (b : Builder) (flag : Operand) (name : String) : Operand × Builder :=
  b.emit (.toReal flag) name

def call (b : Builder) (callee : Nat) (args : List Operand) (name : String) : Operand × Builder :=
  b.emit (.call callee args) name

def load (b : Builder) (place : Operand) (name : String) : Operand × Builder :=
  b.emit (.load place) name

def store (b : Builder) (value place : Operand) : Builder := b.perform (.store value place)

def jump (b : Builder) (dest : BlockRef) : Builder := b.perform (.jump dest.block)

def branch (b : Builder) (flag : Operand) (yes no : BlockRef) : Builder :=
  b.perform (.branch flag yes.block no.block)

def ret (b : Builder) (value : Operand) : Builder := b.perform (.ret value)

/-- Adds a slot at the top of a function, wherever the insertion point is. -/
def slot (b : Builder) (id : Nat) (name : String) : Operand × Builder :=
  match b.module.raw? id with
  | none => (.undef, b)
  | some f =>
    (.inst f.insts.size, { b with module := b.module.modify id fun f => (f.addSlot name).2 })

def addBlock (b : Builder) (id : Nat) (name : String) : BlockRef × Builder :=
  let block := match b.module.raw? id with
    | some f => f.blocks.size
    | none => 0
  (⟨id, block⟩, { b with module := b.module.modify id fun f => (f.addBlock name).2 })

def moveToEnd (b : Builder) (id : Nat) (ref : BlockRef) : Builder :=
  { b with module := b.module.modify id fun f => f.moveToEnd ref.block }

def positionAt (b : Builder) (ref : BlockRef) : Builder := { b with point := some ref }

/-- A function by name. Nothing has the empty name. -/
def find? (b : Builder) (name : String) : Option Nat :=
  if name.isEmpty then none else b.module.find? name

def declare (b : Builder) (name : String) (params : List String) : Nat × Builder :=
  let (id, module) := b.module.add name params
  (id, { b with module })

def paramCount (b : Builder) (id : Nat) : Nat := b.module.paramCount id

def hasBody (b : Builder) (id : Nat) : Bool := b.module.hasBody id

/-- Removes a function; the insertion point is lost if it was there. -/
def delete (b : Builder) (id : Nat) : Builder :=
  { b with
    module := b.module.remove id
    point := if b.current? = some id then none else b.point }

/-- Runs the passes on a finished function. -/
def optimize (b : Builder) (id : Nat) : Builder :=
  { b with module := b.module.modify id fun f => (Pass.runAll b.passes f).1 }

end Builder

end Kaleidoscope.Flow
