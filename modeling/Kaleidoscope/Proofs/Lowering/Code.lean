import Kaleidoscope.Lowering.Expr
import Kaleidoscope.Proofs.Flow.Site

/-!
The code of expressions: which instructions an expression is lowered to, as a relation between the function before
and after it. Names of functions are looked up in a module that has all of them.
-/

namespace Kaleidoscope

open Kaleidoscope.Flow

/-- The slots of all variables that have been bound, the innermost first. -/
abbrev Scope := List (String × Operand)

/-- The slots of the variables in scope: of those with the same name, the innermost. -/
def Scope.names (scope : Scope) : SortedMap String Operand :=
  scope.foldr (fun entry names => names.insert entry.1 entry.2) .empty

theorem Scope.get?_names (scope : Scope) (name : String) : scope.names.get? name = scope.lookup name := by
  induction scope with
  | nil => rfl
  | cons entry scope ih =>
    rw [SortedMap.lookup_cons_eq, ← ih]
    exact SortedMap.get?_insert _ entry.1 name entry.2

/-- The operators that are instructions of their own, and the hint for the name of their result. -/
def Expr.arithmetic? : Char → Option (Arith × String)
  | '+' => some (.add, "addtmp")
  | '-' => some (.sub, "subtmp")
  | '*' => some (.mul, "multmp")
  | _ => none

/-- The expressions that an expression is made of. -/
def Expr.children : Expr → List Expr
  | .binary _ lhs rhs => [lhs, rhs]
  | .unary _ operand => [operand]
  | .cond test yes no => [test, yes, no]
  | .loop _ start stop step body => [start, stop, body] ++ step.toList
  | .call _ args => args
  | .bind bindings body => body :: bindings.map Prod.snd
  | _ => []

namespace Flow.Site

def newVariable (site : Site) (name : String) (value : Operand) : Site :=
  (site.addSlot name).push (.store value site.next) ""

/-- Whether a value counts as true. -/
def test (site : Site) (value : Operand) (name : String) : Site :=
  site.push (.compare .differ value (.const .zero)) name

@[simp] theorem test_nextBlock (site : Site) (value : Operand) (name : String) :
    (site.test value name).nextBlock = site.nextBlock :=
  push_nextBlock _ _ _

/-- The slot for the result of a condition on `value`. -/
def forkSlot (site : Site) (value : Operand) : Operand := (site.test value "ifcond").next

/-- The first of the three blocks of a condition on `value`: one for each branch, and the one where they meet. -/
def forkBlock (site : Site) (value : Operand) : Nat :=
  ((site.test value "ifcond").addSlot "iftmp").nextBlock

/-- A condition once its slot and its blocks have been made. -/
def forkBlocks (site : Site) (value : Operand) : Site :=
  ((((site.test value "ifcond").addSlot "iftmp").addBlock "then").addBlock "else").addBlock "ifcont"

/-- Where the first branch of a condition starts. -/
def fork (site : Site) (value : Operand) : Site :=
  let yes := site.forkBlock value
  ((site.forkBlocks value).push (.branch site.next yes (yes + 1)) "").goto yes

/-- Ends a branch of a condition and goes on in the block `next`. -/
def endBranch (site : Site) (value result : Operand) (after next : Nat) : Site :=
  (((site.push (.store value result) "").push (.jump after) "").moveToEnd next).goto next

/-- Where the second branch of a condition starts, if the first has led from its start to `u`. -/
def otherwise (site : Site) (value : Operand) (u : Site) (first : Operand) : Site :=
  u.endBranch first (site.forkSlot value) (site.forkBlock value + 2) (site.forkBlock value + 1)

/-- Where the branches of a condition meet, if the second has led to `w`. -/
def meet (site : Site) (value : Operand) (w : Site) (second : Operand) : Site :=
  w.endBranch second (site.forkSlot value) (site.forkBlock value + 2) (site.forkBlock value + 2)

/-- Where the body of a loop starts. -/
def enterLoop (site : Site) (first slot : Operand) : Site :=
  let top := site.nextBlock
  (((site.push (.store first slot) "").addBlock "loop").push (.jump top) "").goto top

/-- The variable of a loop moves on. -/
def advance (site : Site) (name : String) (slot stride : Operand) : Site :=
  let loaded := site.push (.load slot) name
  (loaded.push (.arith .add site.next stride) "nextvar").push (.store loaded.next slot) ""

/-- The end of a round: the loop starts again at `top` if `value` counts as true, and is left otherwise. -/
def leaveLoop (site : Site) (value : Operand) (top : Nat) : Site :=
  let after := site.nextBlock
  (((site.test value "loopcond").addBlock "afterloop").push (.branch site.next top after) "").goto after

end Flow.Site

/-- `Lowers m scope exprs s values t`: the code of `exprs`, one after the other, leads from `s` to `t` and leaves
their values in `values`. -/
inductive Lowers (m : Module) : Scope → List Expr → Site → List Operand → Site → Prop where
  | nil {scope : Scope} {s : Site} : Lowers m scope [] s [] s
  | cons {scope : Scope} {e : Expr} {es : List Expr} {s t u : Site} {v : Operand} {vs : List Operand}
      (first : Lowers m scope [e] s [v] t) (others : Lowers m scope es t vs u) :
      Lowers m scope (e :: es) s (v :: vs) u
  | number {scope : Scope} {value : Double} {s : Site} :
      Lowers m scope [.number value] s [.const value] s
  | var {scope : Scope} {name : String} {slot : Operand} {s : Site} (bound : scope.lookup name = some slot) :
      Lowers m scope [.var name] s [s.next] (s.push (.load slot) name)
  | assign {scope : Scope} {name : String} {e : Expr} {slot v : Operand} {s t : Site}
      (value : Lowers m scope [e] s [v] t) (bound : scope.lookup name = some slot) :
      Lowers m scope [.binary '=' (.var name) e] s [v] (t.push (.store v slot) "")
  | arith {scope : Scope} {symbol : Char} {op : Arith} {hint : String} {lhs rhs : Expr} {s t : Site}
      {l r : Operand} (known : Expr.arithmetic? symbol = some (op, hint))
      (operands : Lowers m scope [lhs, rhs] s [l, r] t) :
      Lowers m scope [.binary symbol lhs rhs] s [(t.arith op l r hint).1] (t.arith op l r hint).2
  | less {scope : Scope} {lhs rhs : Expr} {s t : Site} {l r : Operand}
      (operands : Lowers m scope [lhs, rhs] s [l, r] t) :
      Lowers m scope [.binary '<' lhs rhs] s [(t.push (.compare .less l r) "cmptmp").next]
        ((t.push (.compare .less l r) "cmptmp").push (.toReal t.next) "booltmp")
  | binary {scope : Scope} {symbol : Char} {callee : Nat} {lhs rhs : Expr} {s t : Site} {l r : Operand}
      (user : symbol ≠ '=' ∧ symbol ≠ '<' ∧ Expr.arithmetic? symbol = none)
      (operands : Lowers m scope [lhs, rhs] s [l, r] t)
      (found : m.find? (Prototype.binaryName symbol) = some callee) :
      Lowers m scope [.binary symbol lhs rhs] s [t.next] (t.push (.call callee [l, r]) "binop")
  | unary {scope : Scope} {symbol : Char} {callee : Nat} {operand : Expr} {s t : Site} {v : Operand}
      (value : Lowers m scope [operand] s [v] t)
      (found : m.find? (Prototype.unaryName symbol) = some callee) :
      Lowers m scope [.unary symbol operand] s [t.next] (t.push (.call callee [v]) "unop")
  | call {scope : Scope} {name : String} {callee : Nat} {args : List Expr} {s t : Site} {vs : List Operand}
      (found : m.find? name = some callee) (count : m.paramCount callee = args.length)
      (values : Lowers m scope args s vs t) :
      Lowers m scope [.call name args] s [t.next] (t.push (.call callee vs) "calltmp")
  | cond {scope : Scope} {test yes no : Expr} {s t u w : Site} {v a b : Operand}
      (tested : Lowers m scope [test] s [v] t)
      (first : Lowers m scope [yes] (t.fork v) [a] u)
      (second : Lowers m scope [no] (t.otherwise v u a) [b] w) :
      Lowers m scope [.cond test yes no] s [(t.meet v w b).next]
        ((t.meet v w b).push (.load (t.forkSlot v)) "iftmp")
  | loop {scope : Scope} {name : String} {start stop body : Expr} {step : Option Expr} {s t u : Site}
      {first value stride ignored : Operand}
      (started : Lowers m scope [start] (s.addSlot name) [first] t)
      (round : Lowers m ((name, s.next) :: scope) [body, step.getD (.number .one), stop]
        (t.enterLoop first s.next) [ignored, stride, value] u) :
      Lowers m scope [.loop name start stop step body] s [.const .zero]
        ((u.advance name s.next stride).leaveLoop value t.nextBlock)
  | bindNone {scope : Scope} {body : Expr} {s t : Site} {v : Operand}
      (value : Lowers m scope [body] s [v] t) : Lowers m scope [.bind [] body] s [v] t
  | bindOne {scope : Scope} {name : String} {init body : Expr} {bindings : List (String × Expr)}
      {s t u : Site} {v w : Operand} (value : Lowers m scope [init] s [v] t)
      (others : Lowers m ((name, t.next) :: scope) [.bind bindings body] (t.newVariable name v) [w] u) :
      Lowers m scope [.bind ((name, init) :: bindings) body] s [w] u

end Kaleidoscope
