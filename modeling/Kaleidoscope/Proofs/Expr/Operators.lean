import Kaleidoscope.Proofs.Expr.Restriction

/-!
The binary operators of what is read. All of them have a precedence, and an operator that has none fails every reading
that would make use of it.
-/

namespace Kaleidoscope

open Reading

namespace Expr

mutual

/-- The binary operators, from left to right. -/
def operators : Expr → List Char
  | number _ => []
  | var _ => []
  | binary op lhs rhs => lhs.operators ++ op :: rhs.operators
  | unary _ operand => operand.operators
  | cond test yes no => test.operators ++ (yes.operators ++ no.operators)
  | loop _ start stop step body => start.operators ++ (stop.operators ++ (operatorsStep step ++ body.operators))
  | call _ args => operatorsArgs args
  | declaration _ => []
  | definition _ body => body.operators
  | bind bindings body => operatorsBindings bindings ++ body.operators

def operatorsStep : Option Expr → List Char
  | none => []
  | some step => step.operators

def operatorsArgs : List Expr → List Char
  | [] => []
  | arg :: args => arg.operators ++ operatorsArgs args

def operatorsBindings : List (String × Expr) → List Char
  | [] => []
  | (_, init) :: bindings => init.operators ++ operatorsBindings bindings

end

variable {joins : Char → Prop}

private theorem forall_operatorsStep {step : Option Expr}
    (each : ∀ inner, step = some inner → ∀ op ∈ inner.operators, joins op) :
    ∀ op ∈ operatorsStep step, joins op := by
  cases step with
  | none => exact List.forall_mem_nil _
  | some step => exact each step rfl

private theorem forall_operatorsArgs {args : List Expr} (each : ∀ arg ∈ args, ∀ op ∈ arg.operators, joins op) :
    ∀ op ∈ operatorsArgs args, joins op := by
  induction args with
  | nil => exact List.forall_mem_nil _
  | cons arg args ih =>
    obtain ⟨first, others⟩ := List.forall_mem_cons.mp each
    exact List.forall_mem_append.mpr ⟨first, ih others⟩

private theorem forall_operatorsBindings {bindings : List (String × Expr)}
    (each : ∀ binding ∈ bindings, ∀ op ∈ binding.2.operators, joins op) :
    ∀ op ∈ operatorsBindings bindings, joins op := by
  induction bindings with
  | nil => exact List.forall_mem_nil _
  | cons binding bindings ih =>
    obtain ⟨first, others⟩ := List.forall_mem_cons.mp each
    exact List.forall_mem_append.mpr ⟨first, ih others⟩

/-- The rules use no binary operators but those of chains. -/
theorem closed_operators (joins : Char → Prop) : Closed joins fun _ value => ∀ op ∈ value.operators, joins op where
  number _ _ := List.forall_mem_nil _
  var _ _ := List.forall_mem_nil _
  unary _ _ inner := inner
  cond tested first second := List.forall_mem_append.mpr ⟨tested, List.forall_mem_append.mpr ⟨first, second⟩⟩
  loop _ _ _ _ _ begun ended stepped inner :=
    List.forall_mem_append.mpr ⟨begun, List.forall_mem_append.mpr ⟨ended,
      List.forall_mem_append.mpr ⟨forall_operatorsStep stepped, inner⟩⟩⟩
  call _ _ each := forall_operatorsArgs each
  bind each inner := List.forall_mem_append.mpr ⟨forall_operatorsBindings each, inner⟩
  chain head each := by
    refine Chain.holds_tree joins (fun value => ∀ op ∈ value.operators, joins op) ?_ head each
    intro op lhs rhs joined left right
    exact List.forall_mem_append.mpr ⟨left, List.forall_mem_cons.mpr ⟨joined, right⟩⟩
  lift inner := inner

variable {table wider : PrecedenceTable} {tokens rest : List Token} {value : Expr}

theorem contains_operators_parse (read : (parse table tokens).result = .ok (value, rest)) :
    ∀ op ∈ value.operators, table.contains op = true := by
  have restricts : Restricts .nestingTooDeep (table.contains · = true) table table :=
    ⟨fun _ => .inl rfl, fun _ known => known⟩
  rcases (curbs_expression (closed_operators _) restricts (.inl rfl)).1 tokens with deep | ⟨_, known⟩
  · cases deep.symm.trans read
  · exact known value rest read

/-- What could be read with one more operator and makes use of it cannot be read without it. -/
theorem parse_lacking {op : Char} (missing : table.get? op = none)
    (others : ∀ symbol, symbol ≠ op → table.get? symbol = wider.get? symbol)
    (read : (parse wider tokens).result = .ok (value, rest)) (uses : op ∈ value.operators) :
    (parse table tokens).result = .error (.unknownBinaryOperator op) := by
  have restricts : Restricts (.unknownBinaryOperator op) (· ≠ op) table wider := by
    refine ⟨fun symbol => ?_, fun symbol known same => ?_⟩
    · by_cases same : symbol = op
      · exact .inr ⟨same ▸ missing, congrArg _ same.symm⟩
      · exact .inl (others symbol same)
    · rw [same, PrecedenceTable.contains, missing] at known
      contradiction
  rcases (curbs_expression (closed_operators _) restricts (.inl rfl)).1 tokens with unknown | ⟨same, without⟩
  · exact unknown
  · exact absurd rfl (without value rest (same.trans read) op uses)

end Expr

end Kaleidoscope
