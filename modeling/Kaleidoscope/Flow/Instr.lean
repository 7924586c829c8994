import Kaleidoscope.Double.Basic

/-!
Instructions of functions made of basic blocks. All values are doubles, but for the flags that comparisons
yield and the slots that variables live in. Functions, blocks and instructions go by number.
-/

namespace Kaleidoscope.Flow

inductive Arith where
  | add
  | sub
  | mul
  deriving DecidableEq

def Arith.apply : Arith → Double → Double → Double
  | add => Double.add
  | sub => Double.sub
  | mul => Double.mul

/-- Comparisons that are false whenever an operand is a NaN. -/
inductive Comparison where
  | less
  | differ
  deriving DecidableEq

def Comparison.holds : Comparison → Double → Double → Bool
  | less => Double.less
  | differ => Double.ordNe

inductive Operand where
  | const (value : Double)
  | param (index : Nat)
  | inst (id : Nat)
  /-- Stands for the result of an instruction that had nowhere to go. -/
  | undef
  deriving DecidableEq

namespace Operand

def inst? : Operand → Option Nat
  | inst id => some id
  | _ => none

/-- `value` in place of the result of the instruction `id`. -/
def replace (id : Nat) (value : Operand) (operand : Operand) : Operand :=
  if operand = inst id then value else operand

end Operand

inductive Instr where
  | arith (op : Arith) (lhs rhs : Operand)
  | compare (rel : Comparison) (lhs rhs : Operand)
  /-- A flag as 1 or 0. -/
  | toReal (flag : Operand)
  | call (callee : Nat) (args : List Operand)
  | slot
  | load (place : Operand)
  | store (value place : Operand)
  | jump (dest : Nat)
  | branch (flag : Operand) (yes no : Nat)
  | ret (value : Operand)
  deriving DecidableEq

namespace Instr

def operands : Instr → List Operand
  | arith _ lhs rhs => [lhs, rhs]
  | compare _ lhs rhs => [lhs, rhs]
  | toReal flag => [flag]
  | call _ args => args
  | slot => []
  | load place => [place]
  | store value place => [value, place]
  | jump _ => []
  | branch flag _ _ => [flag]
  | ret value => [value]

def mapOperands (f : Operand → Operand) : Instr → Instr
  | arith op lhs rhs => arith op (f lhs) (f rhs)
  | compare rel lhs rhs => compare rel (f lhs) (f rhs)
  | toReal flag => toReal (f flag)
  | call callee args => call callee (args.map f)
  | slot => slot
  | load place => load (f place)
  | store value place => store (f value) (f place)
  | jump dest => jump dest
  | branch flag yes no => branch (f flag) yes no
  | ret value => ret (f value)

/-- The blocks that may run next. -/
def targets : Instr → List Nat
  | jump dest => [dest]
  | branch _ yes no => [yes, no]
  | _ => []

def isTerminator : Instr → Bool
  | jump _ => true
  | branch _ _ _ => true
  | ret _ => true
  | _ => false

/-- Whether other instructions can use the result. -/
def producesValue : Instr → Bool
  | store _ _ => false
  | jump _ => false
  | branch _ _ _ => false
  | ret _ => false
  | _ => true

/-- Whether an unused one can be removed unnoticed. -/
def isPure : Instr → Bool
  | arith _ _ _ => true
  | compare _ _ _ => true
  | toReal _ => true
  | slot => true
  | load _ => true
  | _ => false

def isSlot : Instr → Bool
  | slot => true
  | _ => false

/-- The slot a load reads. -/
def loadedSlot? : Instr → Option Nat
  | load (.inst id) => some id
  | _ => none

theorem operands_mapOperands (f : Operand → Operand) (instr : Instr) :
    (instr.mapOperands f).operands = instr.operands.map f := by
  cases instr <;> rfl

end Instr

end Kaleidoscope.Flow
