import Kaleidoscope.Expr.Basic
import Kaleidoscope.Lowering.Context

/-!
Lowering expressions to instructions. Every variable and the result of every condition lives in a slot at the
top of its function.
-/

namespace Kaleidoscope

open Kaleidoscope.Flow

namespace Lowering

/-- What a binary operator other than assignment does with its operands. -/
def binaryOperator (op : Char) (lhs rhs : Operand) : Lowering Operand :=
  match op with
  | '+' => emit (·.arith .add lhs rhs "addtmp")
  | '-' => emit (·.arith .sub lhs rhs "subtmp")
  | '*' => emit (·.arith .mul lhs rhs "multmp")
  | '<' => do
    let flag ← emit (·.compare .less lhs rhs "cmptmp")
    emit (·.toReal flag "booltmp")
  | op => do
    let callee ← operatorFunction (Prototype.binaryName op) (.unknownBinaryOperator op)
    emit (·.call callee [lhs, rhs] "binop")

/-- The function of a call with this many arguments. -/
def calleeFor (name : String) (count : Nat) : Lowering Nat := do
  match ← function? name with
  | none => throw (.unknownFunction name)
  | some id =>
    let expected := (← get).builder.paramCount id
    if expected = count then
      return id
    else
      throw (.argumentCount name expected count)

/-- Whether a value counts as true: it differs from zero and is no NaN. -/
def flagOf (value : Operand) (name : String) : Lowering Operand :=
  emit (·.compare .differ value (.const .zero) name)

/-- Ends a branch of a condition: its value goes to the slot of the result. -/
def endBranch (value result : Operand) (after : BlockRef) : Lowering Unit := do
  update (·.store value result)
  update (·.jump after)

/-- A condition on a value, with the code of both branches. -/
def condition (test : Operand) (yes no : Lowering Operand) : Lowering Operand := do
  let flag ← flagOf test "ifcond"
  let id ← currentFunction
  let result ← emit (·.slot id "iftmp")
  let yesBlock ← emit (·.addBlock id "then")
  let noBlock ← emit (·.addBlock id "else")
  let after ← emit (·.addBlock id "ifcont")
  update (·.branch flag yesBlock noBlock)
  update (·.positionAt yesBlock)
  let value ← yes
  endBranch value result after
  update (·.moveToEnd id noBlock)
  update (·.positionAt noBlock)
  let value ← no
  endBranch value result after
  update (·.moveToEnd id after)
  update (·.positionAt after)
  emit (·.load result "iftmp")

/-- The end of one round of a loop: the variable moves on by `stride`, and the loop goes on if `test` counts as
true. -/
def loopEnd (name : String) (slot stride test : Operand) : Lowering Operand := do
  let current ← emit (·.load slot name)
  let next ← emit (·.arith .add current stride "nextvar")
  update (·.store next slot)
  flagOf test "loopcond"

/-- A loop from the code of its parts. The variable is in scope in all of them but `start`. -/
def loop (name : String) (start body step test : Lowering Operand) : Lowering Operand := do
  let id ← currentFunction
  let slot ← emit (·.slot id name)
  let first ← start
  update (·.store first slot)
  let top ← emit (·.addBlock id "loop")
  update (·.jump top)
  update (·.positionAt top)
  let flag ← withName name slot do
    let _ ← body
    let stride ← step
    let value ← test
    loopEnd name slot stride value
  let after ← emit (·.addBlock id "afterloop")
  update (·.branch flag top after)
  update (·.positionAt after)
  return .const .zero

/-- A new variable that starts with `value`. -/
def newVariable (id : Nat) (name : String) (value : Operand) : Lowering Operand := do
  let slot ← emit (·.slot id name)
  update (·.store value slot)
  return slot

mutual

def expr : Expr → Lowering Operand
  | .number value => return .const value
  | .var name => do
    let slot ← lookup name
    emit (·.load slot name)
  | .binary op lhs rhs =>
    if op = '=' then
      match lhs with
      | .var name => do
        let value ← expr rhs
        let slot ← lookup name
        update (·.store value slot)
        return value
      | other => throw (.invalidAssignment other.render)
    else do
      let l ← expr lhs
      let r ← expr rhs
      binaryOperator op l r
  | .unary op operand => do
    let value ← expr operand
    let callee ← operatorFunction (Prototype.unaryName op) (.unknownUnaryOperator op)
    emit (·.call callee [value] "unop")
  | .cond test yes no => do
    let value ← expr test
    condition value (expr yes) (expr no)
  | .loop name start stop step body => loop name (expr start) (expr body) (stepValue step) (expr stop)
  | .call name args => do
    let callee ← calleeFor name args.length
    let values ← arguments args
    emit (·.call callee values "calltmp")
  | .declaration proto => throw (.nestedDeclaration proto.name)
  | .definition proto _ => throw (.nestedDefinition proto.name)
  | .bind bindings body => do
    let id ← currentFunction
    withBindings (bindEach id bindings []) (expr body)

/-- The step of a loop is one unless it is given. -/
def stepValue : Option Expr → Lowering Operand
  | none => return .const .one
  | some step => expr step

def arguments : List Expr → Lowering (List Operand)
  | [] => return []
  | arg :: args => do
    let value ← expr arg
    let values ← arguments args
    return value :: values

/-- Binds each name in turn; an initial value sees the names before it. The names bound before a failure are among
the result as well. -/
def bindEach (id : Nat) : List (String × Expr) → Shadowed → StateM Context (Except LoweringError Unit × Shadowed)
  | [], shadowed => return (.ok (), shadowed)
  | (name, init) :: bindings, shadowed => do
    let bound : Lowering (Option Operand) := do
      let value ← expr init
      let slot ← newVariable id name value
      bindName name slot
    match ← bound.run with
    | .ok old => bindEach id bindings (shadowed ++ [(name, old)])
    | .error reason => return (.error reason, shadowed)

end

end Lowering

end Kaleidoscope
