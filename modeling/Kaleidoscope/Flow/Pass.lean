import Kaleidoscope.Flow.Pass.DeadCode
import Kaleidoscope.Flow.Pass.FoldConstants
import Kaleidoscope.Flow.Pass.ForwardStores

/-!
Passes over finished functions, run in the order of a list.
-/

namespace Kaleidoscope.Flow

inductive Pass where
  | forwardStores
  | foldConstants
  | removeDeadCode
  deriving DecidableEq

namespace Pass

/-- The changed function, and whether the pass found anything to do. -/
def apply : Pass → Function → Function × Bool
  | forwardStores, f => f.forwardStores
  | foldConstants, f => f.foldConstants
  | removeDeadCode, f => f.removeDeadCode

def standard : List Pass := [forwardStores, foldConstants, removeDeadCode]

def runAll : List Pass → Function → Function × Bool
  | [], f => (f, false)
  | pass :: passes, f =>
    let (f, changed) := pass.apply f
    let (f, later) := runAll passes f
    (f, changed || later)

end Pass

end Kaleidoscope.Flow
