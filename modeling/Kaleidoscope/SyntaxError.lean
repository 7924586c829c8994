import Kaleidoscope.Token.Basic

/-!
Why a form could not be read.
-/

namespace Kaleidoscope

/-- How deep expressions may nest. Each expression and each operand takes one level. -/
def maxNesting : Nat := 128

/-- What could have stood where reading stopped. -/
inductive Expectation where
  | expression
  | identifier
  | operatorSymbol
  | functionName
  | token (expected : Token)
  deriving DecidableEq

def Expectation.describe : Expectation → String
  | expression => "an expression"
  | identifier => "identifier"
  | operatorSymbol => "an operator symbol"
  | functionName => "function name in prototype"
  | token expected => expected.describe

inductive SyntaxError where
  /-- The offending token, or `none` at the end of the input. -/
  | unexpected (found : Option Token) (expected : List Expectation)
  | operandCount (name : String) (expected found : Nat)
  | invalidPrecedence (value : Double)
  | unknownBinaryOperator (symbol : Char)
  | nestingTooDeep
  deriving DecidableEq

def SyntaxError.message : SyntaxError → String
  | unexpected found expected =>
    "unexpected " ++ (found.map Token.describe).getD "end of input" ++ " when expecting " ++
      " or ".intercalate (expected.map Expectation.describe)
  | operandCount name expected found =>
    "invalid number of operands for operator " ++ name ++ ": expected " ++ toString expected ++
      ", found " ++ toString found
  | invalidPrecedence value =>
    "invalid precedence " ++ value.text ++ ": must be an integer in 1..100"
  | unknownBinaryOperator symbol => "unknown binary operator '" ++ symbol.toString ++ "'"
  | nestingTooDeep => "expression nested deeper than " ++ toString maxNesting ++ " levels"

end Kaleidoscope
