import Kaleidoscope.Expr.Basic

/-!
Top-level forms: declarations and definitions. A bare expression defines an anonymous function.
-/

namespace Kaleidoscope

inductive Form where
  | declaration (proto : Prototype)
  | definition (proto : Prototype) (body : Expr)

namespace Form

def ofExpr : Expr → Form
  | .declaration proto => declaration proto
  | .definition proto body => definition proto body
  | body => definition .anonymous body

def toExpr : Form → Expr
  | declaration proto => .declaration proto
  | definition proto body => .definition proto body

def render (form : Form) : String := form.toExpr.render

end Form

end Kaleidoscope
