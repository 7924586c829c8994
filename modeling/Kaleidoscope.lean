import Kaleidoscope.CommandLine
import Kaleidoscope.Lowering.Unit
import Kaleidoscope.Main
import Kaleidoscope.Proofs.Flow.Dominance
import Kaleidoscope.Proofs.Flow.WellFormed
import Kaleidoscope.Proofs.Flow.Order
import Kaleidoscope.Proofs.Flow.Site
import Kaleidoscope.Proofs.Flow.Shape
import Kaleidoscope.Proofs.Flow.Growth
import Kaleidoscope.Proofs.Flow.Certificate
import Kaleidoscope.Proofs.Lowering.Background
import Kaleidoscope.Proofs.Lowering.Builds
import Kaleidoscope.Proofs.Lowering.Code
import Kaleidoscope.Proofs.Lowering.Emitted
import Kaleidoscope.Proofs.Lowering.Draft
import Kaleidoscope.Proofs.Lowering.Definition
import Kaleidoscope.Proofs.Lowering.Finished
import Kaleidoscope.Proofs.Pass.Kept
import Kaleidoscope.Proofs.Lowering.Reachable
import Kaleidoscope.Proofs.Machine.Run
import Kaleidoscope.Proofs.Machine.Action
import Kaleidoscope.Proofs.Machine.Refinement
import Kaleidoscope.Proofs.Machine.Reached
import Kaleidoscope.Proofs.Pass.Rewrite
import Kaleidoscope.Proofs.Pass.Equation
import Kaleidoscope.Proofs.Pass.ForwardStores
import Kaleidoscope.Proofs.Pass.FoldConstants
import Kaleidoscope.Proofs.Pass.DeadCode
import Kaleidoscope.Proofs.Pass.Optimized
import Kaleidoscope.Proofs.Token.Spelling
import Kaleidoscope.Proofs.Form.Spelled
import Kaleidoscope.Proofs.Lowering.Calls
import Kaleidoscope.Proofs.Session.Evolution
import Kaleidoscope.Proofs.Session.Linked
import Kaleidoscope.Proofs.Session.Resolution
import Kaleidoscope.Proofs.Meaning.Evaluation
import Kaleidoscope.Proofs.Meaning.Agreement
import Kaleidoscope.Proofs.Meaning.Position
import Kaleidoscope.Proofs.Meaning.Cells
import Kaleidoscope.Proofs.Meaning.Simulation
import Kaleidoscope.Proofs.Meaning.Control
import Kaleidoscope.Proofs.Meaning.Lowered
import Kaleidoscope.Proofs.PrecedenceTable
import Kaleidoscope.Proofs.Reading
import Kaleidoscope.Proofs.Expr.Grammar
import Kaleidoscope.Proofs.Expr.Results
import Kaleidoscope.Proofs.Expr.Completeness
import Kaleidoscope.Proofs.Expr.Acceptance
import Kaleidoscope.Proofs.Token.Scan
import Kaleidoscope.Proofs.Expr.Separation
import Kaleidoscope.Proofs.Form.Separation
import Kaleidoscope.Proofs.Session.Precedence
import Kaleidoscope.Proofs.Session.Splitting
import Kaleidoscope.Proofs.Double.Text
import Kaleidoscope.Proofs.Token.Written
import Kaleidoscope.Proofs.Expr.Rendered
import Kaleidoscope.Proofs.Form.Heads
import Kaleidoscope.Proofs.Form.Rendered
import Kaleidoscope.Proofs.Machine.Limits
import Kaleidoscope.Proofs.Machine.Halting
import Kaleidoscope.Proofs.Session.Faults
import Kaleidoscope.Proofs.Session.Forgetting
import Kaleidoscope.Proofs.Session.Drivers
import Kaleidoscope.Proofs.Expr.Nesting
import Kaleidoscope.Proofs.Session.Registry
import Kaleidoscope.Proofs.Expr.Operators
import Kaleidoscope.Proofs.Session.Kinds
import Kaleidoscope.Proofs.Session.Operators
import Kaleidoscope.Proofs.Lowering.Decides
import Kaleidoscope.Proofs.Expr.Grouping
import Kaleidoscope.Proofs.Form.Recovery
import Kaleidoscope.Proofs.Lowering.Checker
import Kaleidoscope.Proofs.Lowering.Verdict
import Kaleidoscope.Proofs.Lowering.Confined
import Kaleidoscope.Proofs.Lowering.Sequenced
import Kaleidoscope.Proofs.Double.Exact
import Kaleidoscope.Proofs.Lowering.Scope
import Kaleidoscope.Proofs.Token.Munch
import Kaleidoscope.Proofs.Lowering.Chronology
import Kaleidoscope.Proofs.Pass.Chronology
import Kaleidoscope.Proofs.Pass.Settled
import Kaleidoscope.Proofs.PrecedenceTable.History
import Kaleidoscope.Proofs.Flow.Naming
import Kaleidoscope.Proofs.Pass.Replacement
import Kaleidoscope.Proofs.Lowering.Layout
