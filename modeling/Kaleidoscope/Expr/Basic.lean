import Kaleidoscope.Double.Text
import Kaleidoscope.Expr.Prototype

/-!
Expressions and their written form, which brackets every operator so that it reads back under any
precedences.
-/

namespace Kaleidoscope

inductive Expr where
  | number (value : Double)
  | var (name : String)
  | binary (op : Char) (lhs rhs : Expr)
  | unary (op : Char) (operand : Expr)
  | cond (test yes no : Expr)
  | loop (name : String) (start stop : Expr) (step : Option Expr) (body : Expr)
  | call (callee : String) (args : List Expr)
  | declaration (proto : Prototype)
  | definition (proto : Prototype) (body : Expr)
  /-- Each initial value sees the names bound before it. -/
  | bind (bindings : List (String × Expr)) (body : Expr)

namespace Expr

mutual

def render : Expr → String
  | number value => value.text
  | var name => name
  | binary op lhs rhs => "(" ++ lhs.render ++ " " ++ op.toString ++ " " ++ rhs.render ++ ")"
  | unary op operand => op.toString ++ operand.render
  | cond test yes no => "(if " ++ test.render ++ " then " ++ yes.render ++ " else " ++ no.render ++ ")"
  | loop name start stop step body =>
    "(for " ++ name ++ " = " ++ start.render ++ ", " ++ stop.render ++ renderStep step ++
      " in " ++ body.render ++ ")"
  | call callee args => callee ++ "(" ++ ", ".intercalate (renderArgs args) ++ ")"
  | declaration proto => "extern " ++ proto.render
  | definition proto body => "def " ++ proto.render ++ " " ++ body.render
  | bind bindings body =>
    "(var " ++ ", ".intercalate (renderBindings bindings) ++ " in " ++ body.render ++ ")"

def renderStep : Option Expr → String
  | none => ""
  | some step => ", " ++ step.render

def renderArgs : List Expr → List String
  | [] => []
  | arg :: args => arg.render :: renderArgs args

def renderBindings : List (String × Expr) → List String
  | [] => []
  | (name, init) :: bindings => (name ++ " = " ++ init.render) :: renderBindings bindings

end

mutual

/-- Equality with numbers compared as numbers: a NaN differs from itself, and the zeros are equal. -/
def numEq : Expr → Expr → Bool
  | number a, number b => a.numEq b
  | var a, var b => a = b
  | binary op a b, binary op' a' b' => op = op' && a.numEq a' && b.numEq b'
  | unary op a, unary op' a' => op = op' && a.numEq a'
  | cond a b c, cond a' b' c' => a.numEq a' && b.numEq b' && c.numEq c'
  | loop name a b step c, loop name' a' b' step' c' =>
    name = name' && a.numEq a' && b.numEq b' && numEqStep step step' && c.numEq c'
  | call callee args, call callee' args' => callee = callee' && numEqArgs args args'
  | declaration proto, declaration proto' => proto = proto'
  | definition proto a, definition proto' a' => proto = proto' && a.numEq a'
  | bind bindings a, bind bindings' a' => numEqBindings bindings bindings' && a.numEq a'
  | _, _ => false

def numEqStep : Option Expr → Option Expr → Bool
  | none, none => true
  | some a, some a' => a.numEq a'
  | _, _ => false

def numEqArgs : List Expr → List Expr → Bool
  | [], [] => true
  | a :: args, a' :: args' => a.numEq a' && numEqArgs args args'
  | _, _ => false

def numEqBindings : List (String × Expr) → List (String × Expr) → Bool
  | [], [] => true
  | (name, a) :: bindings, (name', a') :: bindings' =>
    name = name' && a.numEq a' && numEqBindings bindings bindings'
  | _, _ => false

end

end Expr

end Kaleidoscope
