import Kaleidoscope.Error
import Kaleidoscope.Lowering.Form

/-!
Lowering whole sources without running anything. Forms that fail are reported and skipped.
-/

namespace Kaleidoscope

open Kaleidoscope.Flow

namespace Form

/-- Lowers what could be read. -/
def lowerRead (form : Except SyntaxError Form) (context : Context) (table : PrecedenceTable) :
    Except Error Nat × Context × PrecedenceTable :=
  match form with
  | .error reason => (.error (.reading reason), context, table)
  | .ok form =>
    let lowered := form.lower context table
    (lowered.result.mapError .lowering, lowered.context, lowered.table)

end Form

/-- The result of each form of a source, and the context and precedences after them. -/
def lowerSource (context : Context) (table : PrecedenceTable) (source : String) :
    List (Except Error Nat) × Context × PrecedenceTable :=
  let step (state : List (Except Error Nat) × Context) (table : PrecedenceTable)
      (form : Except SyntaxError Form) :=
    let (results, context) := state
    let (result, context, table) := Form.lowerRead form context table
    ((result :: results, context), table)
  let ((results, context), table) := Form.fold step ([], context) table (Token.significant source)
  (results.reverse, context, table)

/-- Lowers a source into a builder, from the standard precedences. -/
def lowerUnit (builder : Builder) (source : String) : Builder × List Error :=
  let (results, context, _) := lowerSource (.new builder) .standard source
  (context.builder, results.filterMap fun
    | .error reason => some reason
    | .ok _ => none)

end Kaleidoscope
