import Kaleidoscope.Flow.Function

/-!
The functions of one unit.
-/

namespace Kaleidoscope.Flow

structure Module where
  name : String
  functions : Array Function
  /-- The number that the next function without a name gets for a name. -/
  nextAnonymous : Nat
  deriving DecidableEq

namespace Module

def empty (name : String) : Module := ⟨name, #[], 0⟩

/-- The function with this number, removed or not. -/
def raw? (m : Module) (id : Nat) : Option Function := m.functions[id]?

/-- The function with this number, unless it has been removed. -/
def function? (m : Module) (id : Nat) : Option Function :=
  (m.raw? id).filter (!·.removed)

def find? (m : Module) (name : String) : Option Nat :=
  m.functions.findIdx? fun f => !f.removed && f.name == name

/-- The functions that have not been removed, in order of creation. -/
def live (m : Module) : List (Nat × Function) :=
  (m.functions.toList.zipIdx.map fun (f, id) => (id, f)).filter (!·.2.removed)

/-- Adds a declaration. An empty name stands for the next number. -/
def add (m : Module) (name : String) (params : List String) : Nat × Module :=
  if name.isEmpty then
    (m.functions.size,
      { m with
        functions := m.functions.push (.declared (toString m.nextAnonymous) params)
        nextAnonymous := m.nextAnonymous + 1 })
  else
    (m.functions.size, { m with functions := m.functions.push (.declared name params) })

def modify (m : Module) (id : Nat) (change : Function → Function) : Module :=
  { m with functions := m.functions.modify id change }

def remove (m : Module) (id : Nat) : Module :=
  m.modify id fun f => { f with removed := true }

def nameOf (m : Module) (id : Nat) : String :=
  match m.raw? id with
  | some f => f.name
  | none => ""

def paramCount (m : Module) (id : Nat) : Nat :=
  match m.raw? id with
  | some f => f.params.length
  | none => 0

def hasBody (m : Module) (id : Nat) : Bool :=
  match m.raw? id with
  | some f => !f.isDeclaration
  | none => false

end Module

end Kaleidoscope.Flow
