/-!
The heads of functions: a name, parameters, and for operators a precedence.
-/

namespace Kaleidoscope

inductive PrototypeKind where
  | function
  | unary
  | binary
  deriving DecidableEq

/-- How many parameters an operator must have. -/
def PrototypeKind.operands? : PrototypeKind → Option Nat
  | function => none
  | unary => some 1
  | binary => some 2

structure Prototype where
  name : String
  params : List String
  kind : PrototypeKind
  precedence : Int
  deriving DecidableEq

namespace Prototype

/-- The precedence of an operator that does not state one. -/
def defaultPrecedence : Int := 30

def function (name : String) (params : List String) : Prototype :=
  ⟨name, params, .function, defaultPrecedence⟩

def unaryName (symbol : Char) : String := "unary" ++ symbol.toString

def binaryName (symbol : Char) : String := "binary" ++ symbol.toString

def unary (symbol : Char) (param : String) : Prototype :=
  ⟨unaryName symbol, [param], .unary, defaultPrecedence⟩

def binary (symbol : Char) (precedence : Int) (lhs rhs : String) : Prototype :=
  ⟨binaryName symbol, [lhs, rhs], .binary, precedence⟩

/-- The head of the function that holds a bare expression. -/
def anonymous : Prototype := function "" []

def isAnonymous (proto : Prototype) : Bool := proto.name.isEmpty

/-- The symbol of an operator: the last character of its name. -/
def operatorSymbol? (proto : Prototype) : Option Char :=
  match proto.kind with
  | .function => none
  | .unary | .binary => proto.name.toList.getLast?

/-- The symbol of a binary operator. -/
def binarySymbol? (proto : Prototype) : Option Char :=
  match proto.kind with
  | .binary => proto.operatorSymbol?
  | .function | .unary => none

def render (proto : Prototype) : String :=
  let params := "(" ++ " ".intercalate proto.params ++ ")"
  match proto.kind with
  | .binary => proto.name ++ " " ++ toString proto.precedence ++ " " ++ params
  | .function | .unary => proto.name ++ params

end Prototype

end Kaleidoscope
