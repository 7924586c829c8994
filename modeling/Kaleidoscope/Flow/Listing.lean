import Kaleidoscope.Double.Text
import Kaleidoscope.Flow.Module

/-!
The written form of functions and modules. Local names are made unique in order of definition: a name that is
taken gets the next number of a counter that the whole function shares.
-/

namespace Kaleidoscope.Flow

/-- The names given out in a function, and the last number used to tell names apart. -/
structure Naming where
  used : List String
  last : Nat

namespace Naming

/-- The first number above `last` that makes `hint` differ from every name in `taken`. -/
def nextNumber (hint : String) (taken : List String) (last : Nat) : Nat :=
  if hint ++ toString (last + 1) ∈ taken then
    nextNumber hint (taken.erase (hint ++ toString (last + 1))) (last + 1)
  else
    last + 1
termination_by taken.length
decreasing_by
  have := List.length_pos_of_mem ‹_›
  rw [List.length_erase_of_mem ‹_›]
  omega

/-- A name that is not in use, made from `hint`. -/
def fresh (naming : Naming) (hint : String) : String × Naming :=
  let hint := if hint.isEmpty then "tmp" else hint
  if hint ∈ naming.used then
    let number := nextNumber hint naming.used naming.last
    let name := hint ++ toString number
    (name, ⟨name :: naming.used, number⟩)
  else
    (hint, ⟨hint :: naming.used, naming.last⟩)

end Naming

/-- What has a name inside a function. -/
inductive Local where
  | param (index : Nat)
  | block (id : Nat)
  | inst (id : Nat)
  deriving DecidableEq

/-- Gives each hint a name of its own, in order. -/
def assignNames : Naming → List (Local × String) → List (Local × String)
  | _, [] => []
  | naming, (item, hint) :: rest =>
    let (name, naming) := naming.fresh hint
    (item, name) :: assignNames naming rest

namespace Function

def blockHints (f : Function) (id : Nat) : List (Local × String) :=
  match f.block? id with
  | none => []
  | some block =>
    (.block id, block.name) :: block.insts.filterMap fun id =>
      match f.inst? id with
      | some inst => if inst.instr.producesValue then some (.inst id, inst.name) else none
      | none => none

/-- Everything that gets a name, in order of definition, with the hint for it. -/
def nameHints (f : Function) : List (Local × String) :=
  (f.params.zipIdx.map fun (name, index) => (.param index, name)) ++ f.layout.flatMap f.blockHints

def localNames (f : Function) : List (Local × String) := assignNames ⟨[], 0⟩ f.nameHints

end Function

def isPlainChar (c : Char) : Bool := Char.isAlphanum c || c = '-' || c = '$' || c = '.' || c = '_'

/-- Names that need no quotes: digits only, or letters, digits and some marks with no digit first. -/
def isPlainName (name : String) : Bool :=
  match name.toList with
  | [] => false
  | c :: rest => if c.isDigit then rest.all Char.isDigit else isPlainChar c && rest.all isPlainChar

def globalName (name : String) : String :=
  if isPlainName name then "@" ++ name else "@\"" ++ name ++ "\""

namespace Listing

def operand (names : List (Local × String)) : Operand → String
  | .const value => value.exactText
  | .param index =>
    match names.lookup (.param index) with
    | some name => "%" ++ name
    | none => "%arg" ++ toString index
  | .inst id =>
    match names.lookup (.inst id) with
    | some name => "%" ++ name
    | none => "undef"
  | .undef => "undef"

def label (names : List (Local × String)) (block : Nat) : String :=
  match names.lookup (.block block) with
  | some name => "%" ++ name
  | none => "%undef"

def opcode : Arith → String
  | .add => "fadd"
  | .sub => "fsub"
  | .mul => "fmul"

def relation : Comparison → String
  | .less => "olt"
  | .differ => "one"

def instr (m : Module) (names : List (Local × String)) : Instr → String
  | .arith op lhs rhs => opcode op ++ " double " ++ operand names lhs ++ ", " ++ operand names rhs
  | .compare rel lhs rhs =>
    "fcmp " ++ relation rel ++ " double " ++ operand names lhs ++ ", " ++ operand names rhs
  | .toReal flag => "uitofp i1 " ++ operand names flag ++ " to double"
  | .call callee args =>
    "call double " ++ globalName (m.nameOf callee) ++ "(" ++
      ", ".intercalate (args.map fun arg => "double " ++ operand names arg) ++ ")"
  | .slot => "alloca double"
  | .load place => "load double, double* " ++ operand names place
  | .store value place =>
    "store double " ++ operand names value ++ ", double* " ++ operand names place
  | .jump dest => "br label " ++ label names dest
  | .branch flag yes no =>
    "br i1 " ++ operand names flag ++ ", label " ++ label names yes ++ ", label " ++ label names no
  | .ret value => "ret double " ++ operand names value

def inst (m : Module) (f : Function) (names : List (Local × String)) (id : Nat) : String :=
  match f.instr? id with
  | none => ""
  | some body =>
    match names.lookup (.inst id) with
    | some name => "  %" ++ name ++ " = " ++ instr m names body ++ "\n"
    | none => "  " ++ instr m names body ++ "\n"

def block (m : Module) (f : Function) (names : List (Local × String)) (id : Nat) : String :=
  (names.lookup (.block id)).getD "" ++ ":\n" ++ String.join ((f.blockInsts id).map (inst m f names))

def params (f : Function) (names : List (Local × String)) : String :=
  ", ".intercalate ((List.range f.params.length).map fun index =>
    "double " ++ operand names (.param index))

def function (m : Module) (f : Function) : String :=
  let names := f.localNames
  let head := "double " ++ globalName f.name ++ "(" ++ params f names ++ ")"
  if f.isDeclaration then
    "declare " ++ head ++ "\n"
  else
    "define " ++ head ++ " \x7b\n" ++ "\n".intercalate (f.layout.map (block m f names)) ++ "\x7d\n"

end Listing

namespace Module

/-- The name of a function as listings write it. -/
def displayName (m : Module) (id : Nat) : String := globalName (m.nameOf id)

/-- One function, removed or not. -/
def listFunction (m : Module) (id : Nat) : String :=
  match m.raw? id with
  | some f => Listing.function m f
  | none => ""

def listing (m : Module) : String :=
  "; ModuleID = '" ++ m.name ++ "'\n" ++
    String.join (m.live.map fun (_, f) => "\n" ++ Listing.function m f)

end Module

end Kaleidoscope.Flow
