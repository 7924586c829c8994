import Kaleidoscope.Lowering.Error
import Kaleidoscope.Machine.Fault
import Kaleidoscope.SyntaxError

/-!
Everything that can go wrong with a form.
-/

namespace Kaleidoscope

inductive Error where
  | reading (reason : SyntaxError)
  | lowering (reason : LoweringError)
  | evaluation (reason : Machine.Fault)
  deriving DecidableEq

namespace Error

def message : Error → String
  | reading reason => reason.message
  | lowering reason => reason.message
  | evaluation reason => "evaluation failed: " ++ reason.message

/-- Whether the form could not even be read. -/
def isReading : Error → Bool
  | reading _ => true
  | _ => false

end Error

end Kaleidoscope
