import Kaleidoscope.Flow.Function

/-!
Evaluates arithmetic and comparisons on constants.
-/

namespace Kaleidoscope.Flow.Function

def constantResult? (f : Function) (id : Nat) : Option Double :=
  match f.instr? id with
  | some (.arith op (.const lhs) (.const rhs)) => some (op.apply lhs rhs)
  | some (.toReal (.inst flag)) =>
    match f.instr? flag with
    | some (.compare rel (.const lhs) (.const rhs)) => some (.ofBool (rel.holds lhs rhs))
    | _ => none
  | _ => none

def foldInst (state : Function × Bool) (id : Nat) : Function × Bool :=
  match state.1.constantResult? id with
  | some value => (state.1.replaceAllUses id (.const value), true)
  | none => state

def foldConstants (f : Function) : Function × Bool := f.liveInsts.foldl foldInst (f, false)

end Kaleidoscope.Flow.Function
