import Kaleidoscope.Expr.Prototype
import Kaleidoscope.Flow.Builder
import Kaleidoscope.Lowering.Error
import Kaleidoscope.SortedMap

/-!
What lowering works on: the functions built so far, the variables in scope and every prototype seen. An error
leaves everything done before it in place.
-/

namespace Kaleidoscope

open Kaleidoscope.Flow

structure Context where
  builder : Builder
  /-- The slot of each variable in scope. -/
  scope : SortedMap String Operand
  /-- The prototype last seen under each name. -/
  prototypes : List (String × Prototype)

/-- Names that were bound, in the order in which they were, each with the slot it had before. -/
abbrev Shadowed := List (String × Option Operand)

namespace Context

def new (builder : Builder) : Context := ⟨builder, .empty, []⟩

def prototype? (context : Context) (name : String) : Option Prototype := context.prototypes.lookup name

/-- Gives a name the slot back that it had; a name that had none goes out of scope. -/
def restore (context : Context) (name : String) (shadowed : Option Operand) : Context :=
  match shadowed with
  | some slot => { context with scope := context.scope.insert name slot }
  | none => { context with scope := context.scope.erase name }

/-- Takes bindings back, the last of them first. -/
def restoreAll (context : Context) (shadowed : Shadowed) : Context :=
  shadowed.reverse.foldl (fun context entry => context.restore entry.1 entry.2) context

end Context

abbrev Lowering (α : Type) : Type := ExceptT LoweringError (StateM Context) α

namespace Lowering

variable {α : Type}

/-- Builds something that has a result. -/
def emit (build : Builder → α × Builder) : Lowering α :=
  modifyGet fun ⟨builder, scope, prototypes⟩ =>
    let (result, builder) := build builder
    (result, ⟨builder, scope, prototypes⟩)

def update (build : Builder → Builder) : Lowering Unit :=
  modify fun ⟨builder, scope, prototypes⟩ => ⟨build builder, scope, prototypes⟩

/-- The function under construction. -/
def currentFunction : Lowering Nat := do
  match (← get).builder.current? with
  | some id => return id
  | none => throw .noInsertionPoint

/-- The slot of a variable. -/
def lookup (name : String) : Lowering Operand := do
  match (← get).scope.get? name with
  | some slot => return slot
  | none => throw (.unboundVariable name)

/-- Puts a variable in scope. The result is the slot that its name had before. -/
def bindName (name : String) (slot : Operand) : Lowering (Option Operand) :=
  modifyGet fun ⟨builder, scope, prototypes⟩ =>
    (scope.get? name, ⟨builder, scope.insert name slot, prototypes⟩)

def clearScope : Lowering Unit := modify fun context => { context with scope := .empty }

/-- Runs `body` with a variable in scope, and takes the binding back however `body` ends. -/
def withName (name : String) (slot : Operand) (body : Lowering α) : Lowering α := do
  let shadowed ← bindName name slot
  fun context =>
    let (result, context) := body context
    (result, context.restore name shadowed)

/-- Runs `body` once its variables are bound, and takes all bindings that were made back however either ends. -/
def withBindings (bind : StateM Context (Except LoweringError Unit × Shadowed)) (body : Lowering α) :
    Lowering α := fun context =>
  let ((bound, shadowed), context) := bind context
  let (result, context) : Except LoweringError α × Context :=
    match bound with
    | .ok () => body context
    | .error reason => (.error reason, context)
  (result, context.restoreAll shadowed)

/-- Remembers the prototype of a function that has a name. -/
def register (proto : Prototype) : Lowering Unit :=
  if proto.isAnonymous then
    pure ()
  else
    modify fun context =>
      { context with
        prototypes := (proto.name, proto) :: context.prototypes.filter (·.1 != proto.name) }

/-- The function for a prototype, declared now unless there is one of that name. -/
def declare (proto : Prototype) : Lowering Nat := do
  let builder := (← get).builder
  let existing := if proto.isAnonymous then none else builder.find? proto.name
  match existing with
  | some id =>
    if builder.paramCount id = proto.params.length then
      return id
    else
      throw (.conflictingDeclaration proto.name)
  | none => emit (·.declare proto.name proto.params)

/-- A function by name: one that is there, or one declared from a prototype seen earlier. -/
def function? (name : String) : Lowering (Option Nat) := do
  let context ← get
  match context.builder.find? name with
  | some id => return some id
  | none =>
    match context.prototype? name with
    | some proto => return some (← declare proto)
    | none => return none

/-- The function of an operator, or `missing` if there is none. -/
def operatorFunction (name : String) (missing : LoweringError) : Lowering Nat := do
  match ← function? name with
  | some id => return id
  | none => throw missing

end Lowering

end Kaleidoscope
