/-!
Why a run ends without a value.
-/

namespace Kaleidoscope.Machine

inductive Fault where
  | stepLimit (limit : Nat)
  | callDepth (limit : Nat)
  | removedFunction (name : String)
  | argumentCount (name : String) (expected found : Nat)
  | noBody (name : String)
  | unresolvedExternal (name : String)
  | undefinedValue (name : String)
  | fallsThrough (block name : String)
  /-- What the sink said when it failed. -/
  | sinkFailed (reason : String)
  /-- A function, block or instruction number is out of range. -/
  | dangling
  deriving DecidableEq

def Fault.message : Fault → String
  | stepLimit limit => "step limit of " ++ toString limit ++ " exceeded"
  | callDepth limit => "call depth exceeds " ++ toString limit
  | removedFunction name => "call to deleted function " ++ name
  | argumentCount name expected found =>
    name ++ " takes " ++ toString expected ++ " arguments, got " ++ toString found
  | noBody name => name ++ " has no body"
  | unresolvedExternal name => "unresolved external function " ++ name
  | undefinedValue name => name ++ " reads an undefined value"
  | fallsThrough block name => "block " ++ block ++ " of " ++ name ++ " falls through"
  | sinkFailed reason => reason
  | dangling => "dangling reference"

end Kaleidoscope.Machine
