import Kaleidoscope.Form.Parse
import Kaleidoscope.Lowering.Expr

/-!
Lowering forms. A definition whose body cannot be lowered leaves no function behind, and its operator gets
back the precedence it had.
-/

namespace Kaleidoscope

open Kaleidoscope.Flow

namespace Lowering

/-- Declares a function and remembers its prototype. -/
def declaration (proto : Prototype) : Lowering Nat := do
  let id ← declare proto
  register proto
  return id

/-- The function to give a body: a new one, or a declaration that has none yet. -/
def functionToDefine (proto : Prototype) : Lowering Nat := do
  let builder := (← get).builder
  let existing := if proto.isAnonymous then none else builder.find? proto.name
  match existing with
  | some id =>
    if builder.hasBody id then
      throw (.redefinition proto.name)
    else if builder.paramCount id = proto.params.length then
      return id
    else
      throw (.conflictingDeclaration proto.name)
  | none => emit (·.declare proto.name proto.params)

/-- Puts the parameters into slots of their own. -/
def bindParams (id : Nat) : List String → Nat → Lowering Unit
  | [], _ => return ()
  | name :: names, index => do
    let slot ← newVariable id name (.param index)
    let _ ← bindName name slot
    bindParams id names (index + 1)

/-- Finishes a function with the value of its body; it is removed if the body fails. -/
def finishFunction (id : Nat) (body : Lowering Operand) : Lowering Nat := do
  let value ← tryCatch body fun reason => do
    update (·.delete id)
    throw reason
  update (·.ret value)
  update (·.optimize id)
  return id

def definition (proto : Prototype) (body : Expr) : Lowering Nat := do
  let id ← functionToDefine proto
  register proto
  let entry ← emit (·.addBlock id "entry")
  update (·.positionAt entry)
  clearScope
  bindParams id proto.params 0
  finishFunction id (expr body)

end Lowering

namespace Form

def proto : Form → Prototype
  | declaration proto => proto
  | definition proto _ => proto

def lowering : Form → Lowering Nat
  | declaration proto => Lowering.declaration proto
  | definition proto body => Lowering.definition proto body

/-- Keeps the precedence of the form's operator if it could be lowered, and takes it back otherwise. -/
def settle {α : Type} (form : Form) (result : Except LoweringError α) (table : PrecedenceTable) :
    PrecedenceTable :=
  let declared := form.proto.declareIn table
  match result with
  | .ok _ => form.proto.commitIn declared
  | .error _ => form.proto.retractIn declared

/-- What lowering a form gives: its function or an error, and the context and precedences after it. -/
structure Lowered where
  result : Except LoweringError Nat
  context : Context
  table : PrecedenceTable

def lower (form : Form) (context : Context) (table : PrecedenceTable) : Lowered :=
  let (result, context) := form.lowering context
  ⟨result, context, form.settle result table⟩

end Form

end Kaleidoscope
