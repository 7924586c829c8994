/-!
Why a form that could be read cannot be lowered.
-/

namespace Kaleidoscope

inductive LoweringError where
  | unboundVariable (name : String)
  | unknownUnaryOperator (symbol : Char)
  | unknownBinaryOperator (symbol : Char)
  | unknownFunction (name : String)
  | argumentCount (name : String) (expected found : Nat)
  /-- The written form of what stands where a variable must stand. -/
  | invalidAssignment (target : String)
  | redefinition (name : String)
  | conflictingDeclaration (name : String)
  | nestedDeclaration (name : String)
  | nestedDefinition (name : String)
  | noInsertionPoint
  deriving DecidableEq

def LoweringError.message : LoweringError → String
  | unboundVariable name => "unbound variable '" ++ name ++ "'"
  | unknownUnaryOperator symbol => "unknown unary operator '" ++ symbol.toString ++ "'"
  | unknownBinaryOperator symbol => "unknown binary operator '" ++ symbol.toString ++ "'"
  | unknownFunction name => "unknown function '" ++ name ++ "'"
  | argumentCount name expected found =>
    "argument count mismatch calling " ++ name ++ ": expected " ++ toString expected ++
      ", found " ++ toString found
  | invalidAssignment target => "invalid assignment target " ++ target
  | redefinition name => "redefinition of function '" ++ name ++ "'"
  | conflictingDeclaration name => "conflicting declaration of '" ++ name ++ "'"
  | nestedDeclaration name => "extern " ++ name ++ " is only allowed at top level"
  | nestedDefinition name => "definition of " ++ name ++ " is only allowed at top level"
  | noInsertionPoint => "backend: no insertion point"

end Kaleidoscope
