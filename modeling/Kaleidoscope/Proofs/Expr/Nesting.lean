import Kaleidoscope.Proofs.Expr.Operators
import Kaleidoscope.Proofs.Form.Separation
import Kaleidoscope.Proofs.Form.Spelled

/-!
How deep what is read can nest. The limit on nesting bounds the depth of every expression read, where binary operators
joined directly to each other count once: a chain is read without going deeper, however long it is. A lower limit cuts
readings off and changes nothing else.
-/

namespace Kaleidoscope

namespace Expr

mutual

/-- How many expressions stand one inside the other, if each binary operator directly under another binary operator
counts as `joined` of them. -/
def levels (joined : Nat) (under : Bool) : Expr → Nat
  | number _ => 1
  | var _ => 1
  | binary _ lhs rhs => (if under then joined else 1) + max (lhs.levels joined true) (rhs.levels joined true)
  | unary _ operand => 1 + operand.levels joined false
  | cond test yes no =>
    1 + max (test.levels joined false) (max (yes.levels joined false) (no.levels joined false))
  | loop _ start stop step body =>
    1 + max (start.levels joined false)
      (max (stop.levels joined false) (max (levelsStep joined step) (body.levels joined false)))
  | call _ args => 1 + levelsArgs joined args
  | declaration _ => 1
  | definition _ body => 1 + body.levels joined false
  | bind bindings body => 1 + max (levelsBindings joined bindings) (body.levels joined false)

def levelsStep (joined : Nat) : Option Expr → Nat
  | none => 0
  | some step => step.levels joined false

def levelsArgs (joined : Nat) : List Expr → Nat
  | [] => 0
  | arg :: args => max (arg.levels joined false) (levelsArgs joined args)

def levelsBindings (joined : Nat) : List (String × Expr) → Nat
  | [] => 0
  | (_, init) :: bindings => max (init.levels joined false) (levelsBindings joined bindings)

end

/-- The longest chain of expressions one inside the other. -/
def height (value : Expr) : Nat := value.levels 1 false

/-- The height, with binary operators joined directly to each other counted once. -/
def depth (value : Expr) : Nat := value.levels 0 false

mutual

theorem levels_one_le (under : Bool) (value : Expr) :
    value.levels 1 under ≤ value.levels 0 under + value.operators.length := by
  cases value with
  | number _ => simp only [levels]; omega
  | var _ => simp only [levels]; omega
  | binary op lhs rhs =>
    have left := levels_one_le true lhs
    have right := levels_one_le true rhs
    simp only [levels, operators, List.length_append, List.length_cons]
    split <;> omega
  | unary op operand =>
    have inner := levels_one_le false operand
    simp only [levels, operators]
    omega
  | cond test yes no =>
    have tested := levels_one_le false test
    have first := levels_one_le false yes
    have second := levels_one_le false no
    simp only [levels, operators, List.length_append]
    omega
  | loop name start stop step body =>
    have begun := levels_one_le false start
    have ended := levels_one_le false stop
    have stepped := levelsStep_one_le step
    have inner := levels_one_le false body
    simp only [levels, operators, List.length_append]
    omega
  | call callee args =>
    have each := levelsArgs_one_le args
    simp only [levels, operators]
    omega
  | declaration proto => simp only [levels]; omega
  | definition proto body =>
    have inner := levels_one_le false body
    simp only [levels, operators]
    omega
  | bind bindings body =>
    have each := levelsBindings_one_le bindings
    have inner := levels_one_le false body
    simp only [levels, operators, List.length_append]
    omega

theorem levelsStep_one_le (step : Option Expr) :
    levelsStep 1 step ≤ levelsStep 0 step + (operatorsStep step).length := by
  cases step with
  | none => exact Nat.zero_le _
  | some step => exact levels_one_le false step

theorem levelsArgs_one_le (args : List Expr) :
    levelsArgs 1 args ≤ levelsArgs 0 args + (operatorsArgs args).length := by
  cases args with
  | nil => exact Nat.zero_le _
  | cons arg args =>
    have first := levels_one_le false arg
    have others := levelsArgs_one_le args
    simp only [levelsArgs, operatorsArgs, List.length_append]
    omega

theorem levelsBindings_one_le (bindings : List (String × Expr)) :
    levelsBindings 1 bindings ≤ levelsBindings 0 bindings + (operatorsBindings bindings).length := by
  cases bindings with
  | nil => exact Nat.zero_le _
  | cons binding bindings =>
    obtain ⟨name, init⟩ := binding
    have first := levels_one_le false init
    have others := levelsBindings_one_le bindings
    simp only [levelsBindings, operatorsBindings, List.length_append]
    omega

end

private theorem height_le (value : Expr) :
    value.height ≤ value.depth + value.operators.length :=
  levels_one_le false value

/-- A chain is one level deeper than its deepest operand, at most. -/
theorem depth_tree {first : Expr} {links : List Link} {n : Nat} (head : first.depth ≤ n)
    (each : ∀ link ∈ links, link.operand.depth ≤ n) : (Chain.tree first links).depth ≤ n + 1 := by
  have joined (value : Expr) : value.levels 0 true ≤ value.depth ∧ value.depth ≤ value.levels 0 true + 1 := by
    cases value with
    | binary op lhs rhs =>
      simp only [depth, levels, if_true, Bool.false_eq_true, if_false]
      omega
    | _ => simp [depth, levels]
  have whole : (Chain.tree first links).levels 0 true ≤ n := by
    refine Chain.holds_tree (fun _ => True) (fun value => value.levels 0 true ≤ n) ?_
      (Nat.le_trans (joined first).1 head) fun link member =>
        ⟨trivial, Nat.le_trans (joined link.operand).1 (each link member)⟩
    intro op lhs rhs _ left right
    simp only [levels, if_true]
    omega
  exact Nat.le_trans (joined _).2 (Nat.succ_le_succ whole)

section

variable {n : Nat}

private theorem levelsStep_le {step : Option Expr} (each : ∀ inner, step = some inner → inner.depth ≤ n) :
    levelsStep 0 step ≤ n := by
  cases step with
  | none => exact Nat.zero_le _
  | some step => exact each step rfl

private theorem levelsArgs_le {args : List Expr} (each : ∀ arg ∈ args, arg.depth ≤ n) : levelsArgs 0 args ≤ n := by
  induction args with
  | nil => exact Nat.zero_le _
  | cons arg args ih =>
    obtain ⟨first, others⟩ := List.forall_mem_cons.mp each
    exact Nat.max_le.mpr ⟨first, ih others⟩

private theorem levelsBindings_le {bindings : List (String × Expr)} (each : ∀ binding ∈ bindings, binding.2.depth ≤ n) :
    levelsBindings 0 bindings ≤ n := by
  induction bindings with
  | nil => exact Nat.zero_le _
  | cons binding bindings ih =>
    obtain ⟨first, others⟩ := List.forall_mem_cons.mp each
    exact Nat.max_le.mpr ⟨first, ih others⟩

end

/-- Every rule makes at most one level of what it puts together. -/
theorem closed_depth : Closed (fun _ => True) fun n value => value.depth ≤ n where
  number n _ := Nat.le_add_left 1 n
  var n _ := Nat.le_add_left 1 n
  unary _ _ inner := by
    simp only [depth, levels] at inner ⊢
    omega
  cond tested first second := by
    simp only [depth, levels] at tested first second ⊢
    omega
  loop _ _ _ _ _ begun ended stepped inner := by
    have stepped := levelsStep_le stepped
    simp only [depth, levels] at begun ended inner ⊢
    omega
  call _ _ each := by
    have each := levelsArgs_le each
    simp only [depth, levels]
    omega
  bind each inner := by
    have each := levelsBindings_le each
    simp only [depth, levels] at inner ⊢
    omega
  chain head each := depth_tree head fun link member => (each link member).2
  lift inner := Nat.le_succ_of_le inner

/-- With a lower limit on nesting, an expression is too deep or is read as with the higher limit, and is then no deeper
than the lower limit. -/
theorem curbs_limit (table : PrecedenceTable) {budget limit : Nat} (lower : budget ≤ limit) :
    (expression table budget).Curbs .nestingTooDeep (expression table limit) fun value => value.depth ≤ budget :=
  (curbs_expression closed_depth ⟨fun _ => .inl rfl, fun _ _ => trivial⟩ (.inr ⟨lower, rfl⟩)).1

/-- Whatever can be read with some limit on nesting is no deeper than that limit, and is read as it is or too deep. -/
theorem parse_of_expression {table : PrecedenceTable} {limit : Nat} {tokens rest : List Token} {value : Expr}
    (read : (expression table limit tokens).result = .ok (value, rest)) :
    value.depth ≤ limit ∧
      ((parse table tokens).result = .error .nestingTooDeep ∨
        (parse table tokens).result = .ok (value, rest) ∧ value.depth ≤ maxNesting) := by
  obtain deep | ⟨-, shallow⟩ := curbs_limit table (Nat.le_refl limit) tokens
  · rw [deep] at read
    contradiction
  refine ⟨shallow value rest read, ?_⟩
  rcases Nat.le_total maxNesting limit with lower | higher
  · obtain deep | ⟨same, shallow⟩ := curbs_limit table lower tokens
    · exact .inl deep
    · exact .inr ⟨same.trans read, shallow value rest (same.trans read)⟩
  · obtain deep | ⟨same, -⟩ := curbs_limit table higher tokens
    · rw [deep] at read
      contradiction
    · exact .inr ⟨same.symm.trans read, Nat.le_trans (shallow value rest read) higher⟩

private theorem depth_parse {table : PrecedenceTable} {tokens rest : List Token} {value : Expr}
    (read : (parse table tokens).result = .ok (value, rest)) : value.depth ≤ maxNesting :=
  (parse_of_expression read).1

end Expr

namespace Form

variable {table : PrecedenceTable} {tokens : List Token}

theorem ReadUnder.shallow {proto : Prototype} {body : Expr} (read : ReadUnder table tokens (.definition proto body)) :
    body.depth ≤ maxNesting := by
  cases read with
  | definition _ _ read => exact Expr.depth_parse read
  | bare _ read => exact Expr.depth_parse read

/-- Every form of a source has been read under some precedences. -/
theorem readUnder_readAll {source : String} {form : Form} {after : PrecedenceTable}
    (member : (.ok form, after) ∈ readAll table source) : ∃ table' tokens, ReadUnder table' tokens form := by
  unfold readAll at member
  rw [List.mem_reverse] at member
  refine fold_preserves _
    (fun (read : List (Except SyntaxError Form × PrecedenceTable)) _ => (.ok form, after) ∈ read → _) ?_
    (List.suffix_refl _) (fun none => by contradiction) member
  intro read table' tokens item _ before found member
  rcases List.mem_cons.mp member with same | member
  · obtain ⟨same, -⟩ := Prod.mk.inj same
    exact ⟨table', tokens, readUnder_next? found same.symm⟩
  · exact before member

/-- Whether a definition that has been read has a body that passes the test. -/
def anyBody (test : Expr → Bool) (read : List (Except SyntaxError Form × PrecedenceTable)) : Bool :=
  read.any fun item =>
    match item.1 with
    | .ok (.definition _ body) => test body
    | _ => false

private theorem exists_of_anyBody {test : Expr → Bool} {read : List (Except SyntaxError Form × PrecedenceTable)}
    (found : anyBody test read = true) :
    ∃ proto body after, (.ok (.definition proto body), after) ∈ read ∧ test body = true := by
  obtain ⟨⟨form, after⟩, member, passes⟩ := List.any_eq_true.mp found
  split at passes
  · next proto body same =>
    obtain rfl : form = .ok (.definition proto body) := same
    exact ⟨proto, body, after, member, passes⟩
  · contradiction

end Form

/-- The limit on nesting bounds the depth of every body that is read, whatever the precedences, and its height up to
the number of its binary operators. What is deeper than the limit is reported as such: whatever could be read with
another limit is read the same, or is too deep. -/
theorem nesting_bounded (table : PrecedenceTable) :
    (∀ source proto body after, (.ok (.definition proto body), after) ∈ Form.readAll table source →
      body.depth ≤ maxNesting ∧ body.height ≤ maxNesting + body.operators.length) ∧
    ∀ limit tokens value rest, (Expr.expression table limit tokens).result = .ok (value, rest) →
      ((Expr.parse table tokens).result = .ok (value, rest) ∧ value.depth ≤ maxNesting ∨
        (Expr.parse table tokens).result = .error .nestingTooDeep) ∧
      (maxNesting < value.depth → (Expr.parse table tokens).result = .error .nestingTooDeep) := by
  constructor
  · intro source proto body after member
    obtain ⟨_, _, read⟩ := Form.readUnder_readAll member
    have shallow := read.shallow
    exact ⟨shallow, Nat.le_trans body.height_le (Nat.add_le_add_right shallow _)⟩
  · intro limit tokens value rest read
    obtain deep | ⟨same, shallow⟩ := (Expr.parse_of_expression read).2
    · exact ⟨.inr deep, fun _ => deep⟩
    · exact ⟨.inl ⟨same, shallow⟩, fun deep => absurd shallow (Nat.not_le_of_lt deep)⟩

/-- Prefix operators, one applied to the other. -/
def prefixed (count : Nat) : List Token := List.replicate count (.other '!') ++ [.number .one]

theorem nesting_bounded_prefixed :
    (∃ proto body after, (.ok (.definition proto body), after) ∈ Form.readAll .standard "def f(x) x + (x < !(x * x))" ∧
      body.height = 5 ∧ body.depth ≤ maxNesting ∧ body.height ≤ maxNesting + body.operators.length) ∧
    ∃ value, (Expr.expression .standard 200 (prefixed 130)).result = .ok (value, []) ∧ maxNesting < value.depth ∧
      (Expr.parse .standard (prefixed 130)).result = .error .nestingTooDeep := by
  have read : Form.anyBody (·.height = 5) (Form.readAll .standard "def f(x) x + (x < !(x * x))") = true := by
    decide +kernel
  have deep : (Expr.expression .standard 200 (prefixed 130)).result.toOption.map (fun whole =>
      (decide (maxNesting < whole.1.depth), whole.2)) = some (true, []) := by decide +kernel
  constructor
  · obtain ⟨proto, body, after, member, tall⟩ := Form.exists_of_anyBody read
    exact ⟨proto, body, after, member, of_decide_eq_true tall, (nesting_bounded .standard).1 _ proto body after member⟩
  · cases read : (Expr.expression .standard 200 (prefixed 130)).result with
    | error reason =>
      rw [read] at deep
      contradiction
    | ok whole =>
      obtain ⟨value, rest⟩ := whole
      rw [read] at deep
      obtain ⟨deep, rfl⟩ := Prod.mk.inj (Option.some.inj deep)
      have deeper := of_decide_eq_true deep
      exact ⟨value, rfl, deeper, ((nesting_bounded .standard).2 _ _ value [] read).2 deeper⟩

/-- A sum of ones with as many plus signs as given. -/
def sumOfOnes (count : Nat) : String := String.ofList ((List.replicate count ['1', '+']).flatten ++ ['1'])

/-- The limit does not bound the height: a sum is read without going deeper, and each of its operators is one higher. -/
theorem height_not_bounded :
    ¬ ∀ table source proto body after, (.ok (.definition proto body), after) ∈ Form.readAll table source →
      body.height ≤ maxNesting := by
  intro bounded
  have read : Form.anyBody (maxNesting < ·.height) (Form.readAll .standard (sumOfOnes maxNesting)) = true := by
    simp only [Form.readAll, Token.significant, sumOfOnes, String.toList_ofList]
    decide +kernel
  obtain ⟨proto, body, after, member, tall⟩ := Form.exists_of_anyBody read
  exact absurd (bounded _ _ proto body after member) (Nat.not_le_of_lt (of_decide_eq_true tall))

end Kaleidoscope
