import Kaleidoscope.Expr.Basic
import Kaleidoscope.Proofs.Machine.Run

/-!
What expressions mean: they are evaluated on the tree, with variables in cells that can be assigned to. Calls run
functions on the machine.
-/

namespace Kaleidoscope

open Kaleidoscope.Flow
open Kaleidoscope.Machine (Fault Limits Output Port)

/-- The variables with their values, the innermost first. -/
abbrev Cells := List (String × Double)

/-- Gives the innermost variable of this name a new value. -/
def Cells.set (name : String) (value : Double) : Cells → Cells
  | [] => []
  | (key, held) :: cells =>
    if key = name then (key, value) :: cells else (key, held) :: Cells.set name value cells

/-- A fault ends an evaluation with what has been written by then. There is no answer at all for what makes no
sense, and when the fuel does not suffice. -/
abbrev Evaluation (σ α : Type) : Type := StateT Cells (ExceptT Fault (StateT (Port σ) Option)) α

namespace Evaluation

variable {σ α : Type}

def stuck : Evaluation σ α := fun _ _ => none

def read (name : String) : Evaluation σ Double := do
  match (← get).lookup name with
  | some value => return value
  | none => stuck

def assign (name : String) (value : Double) : Evaluation σ Unit := do
  match (← get).lookup name with
  | some _ => modify (Cells.set name value)
  | none => stuck

/-- Evaluates `body` with a new variable. -/
def withVariable (name : String) (value : Double) (body : Evaluation σ α) : Evaluation σ α := do
  modify fun cells => (name, value) :: cells
  let result ← body
  modify List.tail
  return result

/-- Repeats `round` while it yields true, but not more often than the fuel allows. -/
def repeatWhile : Nat → Evaluation σ Bool → Evaluation σ Unit
  | 0, _ => stuck
  | fuel + 1, round => do
    if ← round then
      repeatWhile fuel round

end Evaluation

/-- What evaluation that writes to sinks of the type `σ` depends on: the functions and limits of the machine, which
function a name stands for, how many calls are active, and how much fuel there is for each loop and each call. -/
structure Evaluator (σ : Type) where
  module : Module
  limits : Limits
  resolve : String → Option Nat
  depth : Nat
  fuel : Nat

namespace Evaluator

open Evaluation

variable {σ : Type} [Output σ] (evaluator : Evaluator σ)

/-- Calls a function by name, one level deeper. -/
def call (name : String) (args : List Double) : Evaluation σ Double := fun cells port =>
  match evaluator.resolve name with
  | none => none
  | some id =>
    let outcome := Machine.call evaluator.module evaluator.limits evaluator.fuel port (evaluator.depth + 1) id args
    if outcome.cutShort then none else some (outcome.result.map fun value => (value, cells), outcome.port)

/-- What a binary operator other than assignment does with its operands. -/
def operator (op : Char) (lhs rhs : Double) : Evaluation σ Double :=
  match op with
  | '+' => return Arith.add.apply lhs rhs
  | '-' => return Arith.sub.apply lhs rhs
  | '*' => return Arith.mul.apply lhs rhs
  | '<' => return .ofBool (lhs.less rhs)
  | op => evaluator.call (Prototype.binaryName op) [lhs, rhs]

mutual

def expr : Expr → Evaluation σ Double
  | .number value => return value
  | .var name => read name
  | .binary op lhs rhs =>
    if op = '=' then
      match lhs with
      | .var name => do
        let value ← expr rhs
        assign name value
        return value
      | _ => stuck
    else do
      let l ← expr lhs
      let r ← expr rhs
      evaluator.operator op l r
  | .unary op operand => do
    let value ← expr operand
    evaluator.call (Prototype.unaryName op) [value]
  | .cond test yes no => do
    let value ← expr test
    if value.ordNe .zero then expr yes else expr no
  | .loop name start stop step body => do
    let first ← expr start
    withVariable name first (repeatWhile evaluator.fuel do
      let _ ← expr body
      let stride ← stepValue step
      let test ← expr stop
      let current ← read name
      assign name (Arith.add.apply current stride)
      return test.ordNe .zero)
    return .zero
  | .call name args => do
    let values ← arguments args
    evaluator.call name values
  | .declaration _ => stuck
  | .definition _ _ => stuck
  | .bind bindings body => withBindings bindings (expr body)

/-- The step of a loop is one unless it is given. -/
def stepValue : Option Expr → Evaluation σ Double
  | none => return .one
  | some step => expr step

def arguments : List Expr → Evaluation σ (List Double)
  | [] => return []
  | arg :: args => do
    let value ← expr arg
    let values ← arguments args
    return value :: values

/-- Evaluates `body` with each name bound in turn; an initial value sees the names before it. -/
def withBindings : List (String × Expr) → Evaluation σ Double → Evaluation σ Double
  | [], body => body
  | (name, init) :: bindings, body => do
    let value ← expr init
    withVariable name value (withBindings bindings body)

end

/-- The result of a function on arguments, and what has been written. A later parameter hides an earlier one of
the same name. -/
def function (params : List String) (body : Expr) (args : List Double) (port : Port σ) :
    Option (Except Fault Double × Port σ) :=
  match evaluator.expr body (params.zip args).reverse port with
  | none => none
  | some (result, port) => some (result.map Prod.fst, port)

end Evaluator

end Kaleidoscope
