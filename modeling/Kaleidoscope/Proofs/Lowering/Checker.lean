import Kaleidoscope.Proofs.Expr.Operators
import Kaleidoscope.Proofs.Lowering.Builds
import Kaleidoscope.Proofs.Token.Spelling

/-!
How lowering an expression is put together, beside a checker that does not look at code: whether an expression can be
lowered, and what is wrong with the first part of it that cannot, is decided by the names in scope and by the number of
parameters of each function there is or can be declared.
-/

namespace Kaleidoscope

open Kaleidoscope.Flow

namespace Expr

/-- The variable must be in scope. -/
def checkName (names : List String) (name : String) : Except LoweringError Unit :=
  if name ∈ names then .ok () else .error (.unboundVariable name)

/-- There must be a function for the operator; it is not asked for the number of its parameters. -/
def checkOperator (known : String → Option Nat) (name : String) (missing : LoweringError) :
    Except LoweringError Unit :=
  if (known name).isSome then .ok () else .error missing

/-- There must be a function with this many parameters. -/
def checkCall (known : String → Option Nat) (name : String) (count : Nat) : Except LoweringError Unit :=
  match known name with
  | none => .error (.unknownFunction name)
  | some expected => if expected = count then .ok () else .error (.argumentCount name expected count)

/-- The names in scope behind bindings. -/
def boundNames (names : List String) (bindings : List (String × Expr)) : List String :=
  bindings.foldl (fun names binding => binding.1 :: names) names

mutual

/-- The first thing wrong with an expression, in the order in which its parts are lowered. `known` gives the number of
parameters of each function. -/
def check (known : String → Option Nat) (names : List String) : Expr → Except LoweringError Unit
  | .number _ => .ok ()
  | .var name => checkName names name
  | .binary op lhs rhs =>
    if op = '=' then
      match lhs with
      | .var name => do
        check known names rhs
        checkName names name
      | other => .error (.invalidAssignment other.render)
    else do
      check known names lhs
      check known names rhs
      if op ∈ ['+', '-', '*', '<'] then
        .ok ()
      else
        checkOperator known (Prototype.binaryName op) (.unknownBinaryOperator op)
  | .unary op operand => do
    check known names operand
    checkOperator known (Prototype.unaryName op) (.unknownUnaryOperator op)
  | .cond test yes no => do
    check known names test
    check known names yes
    check known names no
  | .loop name start stop step body => do
    check known names start
    check known (name :: names) body
    checkStep known (name :: names) step
    check known (name :: names) stop
  | .call name args => do
    checkCall known name args.length
    checkArgs known names args
  | .declaration proto => .error (.nestedDeclaration proto.name)
  | .definition proto _ => .error (.nestedDefinition proto.name)
  | .bind bindings body => do
    checkBindings known names bindings
    check known (boundNames names bindings) body

def checkStep (known : String → Option Nat) (names : List String) : Option Expr → Except LoweringError Unit
  | none => .ok ()
  | some step => check known names step

def checkArgs (known : String → Option Nat) (names : List String) : List Expr → Except LoweringError Unit
  | [] => .ok ()
  | arg :: args => do
    check known names arg
    checkArgs known names args

/-- An initial value sees the names that are bound before it, and not its own. -/
def checkBindings (known : String → Option Nat) (names : List String) :
    List (String × Expr) → Except LoweringError Unit
  | [] => .ok ()
  | (name, init) :: bindings => do
    check known names init
    checkBindings known (name :: names) bindings

end

/-- The binary operators that need no function. -/
def builtIn : List Char := ['=', '<', '+', '-', '*']

/-- What can be wrong with an expression whose binary operators are in use: not a lost insertion point, and an operator
only if it is not built in and has no function. -/
structure Finding (known : String → Option Nat) (uses : Char → Prop) (reason : LoweringError) : Prop where
  placed : reason ≠ .noInsertionPoint
  unknown : ∀ op, reason = .unknownBinaryOperator op →
    uses op ∧ op ∉ builtIn ∧ known (Prototype.binaryName op) = none

/-- All that the verdict can say is a finding. -/
def Finds (known : String → Option Nat) (uses : Char → Prop) (verdict : Except LoweringError Unit) : Prop :=
  ∀ reason, verdict = .error reason → Finding known uses reason

section

variable {known : String → Option Nat} {uses : Char → Prop}

theorem Finds.ok : Finds known uses (.ok ()) := fun _ failed => by contradiction

theorem Finds.error {reason : LoweringError} (finding : Finding known uses reason) :
    Finds known uses (.error reason) := by
  intro other same
  exact Except.error.inj same ▸ finding

theorem Finds.bind {first later : Except LoweringError Unit} (begins : Finds known uses first)
    (ends : Finds known uses later) : Finds known uses (first >>= fun _ => later) := by
  cases first with
  | error reason => exact begins
  | ok => exact ends

private theorem checkName_finds (names : List String) (name : String) : Finds known uses (checkName names name) := by
  unfold checkName
  split
  · exact .ok
  · exact .error ⟨by simp, by simp⟩

private theorem checkOperator_finds {name : String} {missing : LoweringError}
    (finding : known name = none → Finding known uses missing) :
    Finds known uses (checkOperator known name missing) := by
  unfold checkOperator
  split
  · exact .ok
  · next absent => exact .error (finding (by simpa using absent))

private theorem checkCall_finds (name : String) (count : Nat) : Finds known uses (checkCall known name count) := by
  unfold checkCall
  split
  · exact .error ⟨by simp, by simp⟩
  · split
    · exact .ok
    · exact .error ⟨by simp, by simp⟩

private theorem checkBinary_finds {op : Char} (used : uses op) (other : op ≠ '=') :
    Finds known uses (if op ∈ ['+', '-', '*', '<'] then .ok ()
      else checkOperator known (Prototype.binaryName op) (.unknownBinaryOperator op)) := by
  split
  · exact .ok
  · next foreign =>
    refine checkOperator_finds fun absent => ⟨by simp, fun symbol same => ?_⟩
    cases same
    refine ⟨used, ?_, absent⟩
    simp only [builtIn, List.mem_cons, List.not_mem_nil, or_false, not_or] at foreign ⊢
    exact ⟨other, foreign.2.2.2, foreign.1, foreign.2.1, foreign.2.2.1⟩

mutual

theorem check_finds : (e : Expr) → (names : List String) → (∀ op ∈ e.operators, uses op) →
    Finds known uses (check known names e)
  | .number _, names, _ => by
    rw [check]
    exact .ok
  | .var name, names, _ => by
    rw [check]
    exact checkName_finds names name
  | .binary op lhs rhs, names, each => by
    obtain ⟨left, right⟩ := List.forall_mem_append.mp each
    obtain ⟨used, right⟩ := List.forall_mem_cons.mp right
    rw [check.eq_def]
    dsimp only
    split
    · split
      · exact (check_finds rhs names right).bind (checkName_finds names _)
      · exact .error ⟨by simp, by simp⟩
    · next other =>
      exact (check_finds lhs names left).bind ((check_finds rhs names right).bind (checkBinary_finds used other))
  | .unary op operand, names, each => by
    rw [check]
    exact (check_finds operand names each).bind (checkOperator_finds fun _ => ⟨by simp, by simp⟩)
  | .cond test yes no, names, each => by
    obtain ⟨tested, each⟩ := List.forall_mem_append.mp each
    obtain ⟨first, second⟩ := List.forall_mem_append.mp each
    rw [check]
    exact (check_finds test names tested).bind ((check_finds yes names first).bind (check_finds no names second))
  | .loop name start stop step body, names, each => by
    obtain ⟨begun, each⟩ := List.forall_mem_append.mp each
    obtain ⟨ended, each⟩ := List.forall_mem_append.mp each
    obtain ⟨stepped, inner⟩ := List.forall_mem_append.mp each
    rw [check]
    refine (check_finds start names begun).bind ((check_finds body _ inner).bind ?_)
    exact (checkStep_finds step _ stepped).bind (check_finds stop _ ended)
  | .call name args, names, each => by
    rw [check]
    exact (checkCall_finds name _).bind (checkArgs_finds args names each)
  | .declaration proto, names, _ => by
    rw [check]
    exact .error ⟨by simp, by simp⟩
  | .definition proto body, names, _ => by
    rw [check]
    exact .error ⟨by simp, by simp⟩
  | .bind bindings body, names, each => by
    obtain ⟨inits, inner⟩ := List.forall_mem_append.mp each
    rw [check]
    exact (checkBindings_finds bindings names inits).bind (check_finds body _ inner)

theorem checkStep_finds : (step : Option Expr) → (names : List String) → (∀ op ∈ operatorsStep step, uses op) →
    Finds known uses (checkStep known names step)
  | none, names, _ => by
    rw [checkStep]
    exact .ok
  | some step, names, each => by
    rw [checkStep]
    exact check_finds step names each

theorem checkArgs_finds : (args : List Expr) → (names : List String) → (∀ op ∈ operatorsArgs args, uses op) →
    Finds known uses (checkArgs known names args)
  | [], names, _ => by
    rw [checkArgs]
    exact .ok
  | arg :: args, names, each => by
    obtain ⟨first, others⟩ := List.forall_mem_append.mp each
    rw [checkArgs]
    exact (check_finds arg names first).bind (checkArgs_finds args names others)

theorem checkBindings_finds : (bindings : List (String × Expr)) → (names : List String) →
    (∀ op ∈ operatorsBindings bindings, uses op) → Finds known uses (checkBindings known names bindings)
  | [], names, _ => by
    rw [checkBindings]
    exact .ok
  | (name, init) :: bindings, names, each => by
    obtain ⟨first, others⟩ := List.forall_mem_append.mp each
    rw [checkBindings]
    exact (check_finds init names first).bind (checkBindings_finds bindings _ others)

end

end

end Expr

namespace Lowering

open Kaleidoscope.Expr

/-- How lowering is put together. With the functions `known` to call and `names` in scope, the checker comes to the
verdict. All functions that are built are some of `own`, and all calls are `fit`. -/
inductive Composed (own : Nat → Prop) (fit : Expr → Prop) (known : String → Option Nat) :
    {α : Type} → List String → Lowering α → Except LoweringError Unit → Prop where
  | pure {α : Type} {names : List String} (value : α) :
      Composed own fit known names (Pure.pure value) (.ok ())
  | throw {α : Type} {names : List String} (reason : LoweringError) :
      Composed own fit known names (MonadExcept.throw reason : Lowering α) (.error reason)
  | bind {α β : Type} {names : List String} {x : Lowering α} {k : α → Lowering β}
      {first later : Except LoweringError Unit} (begins : Composed own fit known names x first)
      (ends : ∀ value, Composed own fit known names (k value) later) :
      Composed own fit known names (x >>= k) (first >>= fun _ => later)
  | emit {names : List String} (instr : Instr) (hint : String) :
      Composed own fit known names (Lowering.emit (·.emit instr hint)) (.ok ())
  | arith {names : List String} (op : Arith) (lhs rhs : Operand) (hint : String) :
      Composed own fit known names (Lowering.emit (·.arith op lhs rhs hint)) (.ok ())
  | perform {names : List String} (instr : Instr) :
      Composed own fit known names (Lowering.update (·.perform instr)) (.ok ())
  | slot {names : List String} {func : Nat} (mine : own func) (hint : String) :
      Composed own fit known names (Lowering.emit (·.slot func hint)) (.ok ())
  | moveToEnd {names : List String} {func : Nat} (mine : own func) (block : BlockRef) :
      Composed own fit known names (Lowering.update (·.moveToEnd func block)) (.ok ())
  | positionAt {names : List String} {func : Nat} (mine : own func) (block : Nat) :
      Composed own fit known names (Lowering.update (·.positionAt ⟨func, block⟩)) (.ok ())
  /-- A new block belongs to the function it is added to. -/
  | addBlock {β : Type} {names : List String} {func : Nat} {k : BlockRef → Lowering β}
      {later : Except LoweringError Unit} (mine : own func) (hint : String)
      (ends : ∀ block, Composed own fit known names (k ⟨func, block⟩) later) :
      Composed own fit known names (Lowering.emit (·.addBlock func hint) >>= k) later
  | currentFunction {β : Type} {names : List String} {k : Nat → Lowering β} {later : Except LoweringError Unit}
      (ends : ∀ func, own func → Composed own fit known names (k func) later) :
      Composed own fit known names (Lowering.currentFunction >>= k) later
  | lookup {names : List String} (name : String) :
      Composed own fit known names (Lowering.lookup name) (checkName names name)
  | withName {α : Type} {names : List String} {name : String} {slot : Operand} {body : Lowering α}
      {verdict : Except LoweringError Unit} (inner : Composed own fit known (name :: names) body verdict) :
      Composed own fit known names (Lowering.withName name slot body) verdict
  | operatorFunction {names : List String} {name : String} (named : ¬ Numbered name) (missing : LoweringError) :
      Composed own fit known names (Lowering.operatorFunction name missing) (checkOperator known name missing)
  | calleeFor {names : List String} {name : String} {args : List Expr} (asked : fit (.call name args)) :
      Composed own fit known names (Lowering.calleeFor name args.length) (checkCall known name args.length)

namespace Composed

variable {α β : Type} {own : Nat → Prop} {fit : Expr → Prop} {known : String → Option Nat} {names : List String}
  {func : Nat}

/-- A step that cannot fail leaves the verdict to the rest. -/
theorem after {x : Lowering α} {k : α → Lowering β} {verdict : Except LoweringError Unit}
    (succeeds : Composed own fit known names x (.ok ()))
    (next : ∀ value, Composed own fit known names (k value) verdict) :
    Composed own fit known names (x >>= k) verdict :=
  succeeds.bind next

/-- A last step that cannot fail leaves the verdict to those before it. -/
theorem before {x : Lowering α} {k : α → Lowering β} {verdict : Except LoweringError Unit}
    (begins : Composed own fit known names x verdict)
    (succeeds : ∀ value, Composed own fit known names (k value) (.ok ())) :
    Composed own fit known names (x >>= k) verdict := by
  have whole := begins.bind succeeds
  cases verdict <;> exact whole

theorem binaryOperator (op : Char) (lhs rhs : Operand) :
    Composed own fit known names (Lowering.binaryOperator op lhs rhs)
      (if op ∈ ['+', '-', '*', '<'] then .ok ()
        else checkOperator known (Prototype.binaryName op) (.unknownBinaryOperator op)) := by
  unfold Lowering.binaryOperator
  split
  · exact .arith _ _ _ _
  · exact .arith _ _ _ _
  · exact .arith _ _ _ _
  · exact .after (.emit _ _) fun flag => .emit _ _
  · next plus minus times less =>
    rw [if_neg (by simpa using ⟨plus, minus, times, less⟩)]
    exact .before (.operatorFunction (Prototype.unnumbered_binaryName op) _) fun callee => .emit _ _

theorem endBranch (value result : Operand) (dest : BlockRef) :
    Composed own fit known names (Lowering.endBranch value result dest) (.ok ()) :=
  .after (.perform _) fun _ => .perform _

theorem condition (test : Operand) {yes no : Lowering Operand} {first second : Except LoweringError Unit}
    (left : Composed own fit known names yes first) (right : Composed own fit known names no second) :
    Composed own fit known names (Lowering.condition test yes no) (first >>= fun _ => second) := by
  unfold Lowering.condition
  refine .after (.emit _ _) fun flag => .currentFunction fun func mine => .after (.slot mine _) fun result => ?_
  refine .addBlock mine _ fun yesBlock => .addBlock mine _ fun noBlock => .addBlock mine _ fun dest => ?_
  refine .after (.perform _) fun _ => .after (.positionAt mine yesBlock) fun _ => left.bind fun value => ?_
  refine .after (endBranch _ _ _) fun _ => .after (.moveToEnd mine _) fun _ => ?_
  refine .after (.positionAt mine noBlock) fun _ => right.before fun value => ?_
  refine .after (endBranch _ _ _) fun _ => .after (.moveToEnd mine _) fun _ => ?_
  exact .after (.positionAt mine dest) fun _ => .emit _ _

theorem loopEnd (name : String) (slot stride test : Operand) :
    Composed own fit known names (Lowering.loopEnd name slot stride test) (.ok ()) := by
  refine .after (.emit _ _) fun current => .after (.arith _ _ _ _) fun next => ?_
  exact .after (.perform _) fun _ => .emit _ _

theorem loop (name : String) {start body step test : Lowering Operand}
    {first inner stride last : Except LoweringError Unit} (begins : Composed own fit known names start first)
    (runs : Composed own fit known (name :: names) body inner)
    (steps : Composed own fit known (name :: names) step stride)
    (tests : Composed own fit known (name :: names) test last) :
    Composed own fit known names (Lowering.loop name start body step test) (do first; inner; stride; last) := by
  unfold Lowering.loop
  refine .currentFunction fun func mine => .after (.slot mine _) fun slot => begins.bind fun value => ?_
  refine .after (.perform _) fun _ => .addBlock mine _ fun top => .after (.perform _) fun _ => ?_
  refine .after (.positionAt mine top) fun _ => .before (.withName ?_) fun flag => ?_
  · refine runs.bind fun _ => steps.bind fun stride => tests.before fun value => ?_
    exact loopEnd _ _ _ _
  · refine .addBlock mine _ fun dest => .after (.perform _) fun _ => ?_
    exact .after (.positionAt mine dest) fun _ => .pure _

theorem newVariable (mine : own func) (name : String) (value : Operand) :
    Composed own fit known names (Lowering.newVariable func name value) (.ok ()) :=
  .after (.slot mine _) fun slot => .after (.perform _) fun _ => .pure slot

variable (hereditary : ∀ whole, fit whole → ∀ part ∈ whole.children, fit part)

include hereditary

-- The theorems use `hereditary` through each other.
set_option linter.unusedSectionVars false in
mutual

/-- Lowering an expression takes the steps that the checker checks, in the same order. -/
theorem expr : (e : Expr) → (names : List String) → fit e →
    Composed own fit known names (Lowering.expr e) (e.check known names)
  | .number value, names, _ => by
    rw [Lowering.expr, check]
    exact .pure _
  | .var name, names, _ => by
    rw [Lowering.expr, check]
    exact .before (.lookup name) fun slot => .emit _ _
  | .binary op lhs rhs, names, fits => by
    have left := hereditary _ fits lhs (by simp [children])
    have right := hereditary _ fits rhs (by simp [children])
    rw [Lowering.expr.eq_def, check.eq_def]
    dsimp only
    split
    · cases lhs with
      | var name =>
        refine (expr rhs names right).bind fun value => .before (.lookup name) fun slot => ?_
        exact .after (.perform _) fun _ => .pure value
      | _ => exact .throw _
    · exact (expr lhs names left).bind fun l => (expr rhs names right).bind fun r => binaryOperator op l r
  | .unary op operand, names, fits => by
    rw [Lowering.expr, check]
    refine (expr operand names (hereditary _ fits operand (by simp [children]))).bind fun value => ?_
    exact .before (.operatorFunction (Prototype.unnumbered_unaryName op) _) fun callee => .emit _ _
  | .cond test yes no, names, fits => by
    have tested := hereditary _ fits test (by simp [children])
    have first := hereditary _ fits yes (by simp [children])
    have second := hereditary _ fits no (by simp [children])
    rw [Lowering.expr, check]
    exact (expr test names tested).bind fun value => condition value (expr yes names first) (expr no names second)
  | .loop name start stop step body, names, fits => by
    have begun := hereditary _ fits start (by simp [children])
    have ended := hereditary _ fits stop (by simp [children])
    have inner := hereditary _ fits body (by simp [children])
    have stepped := stepValue step (name :: names) fun inner same =>
      hereditary _ fits inner (by simp [children, same])
    rw [Lowering.expr, check]
    exact loop name (expr start names begun) (expr body _ inner) stepped (expr stop _ ended)
  | .call name args, names, fits => by
    rw [Lowering.expr, check]
    refine .bind (.calleeFor fits) fun callee => ?_
    exact (arguments args names (hereditary _ fits)).before fun values => .emit _ _
  | .declaration proto, names, _ => by
    rw [Lowering.expr, check]
    exact .throw _
  | .definition proto body, names, _ => by
    rw [Lowering.expr, check]
    exact .throw _
  | .bind bindings body, names, fits => by
    have inner := hereditary _ fits body (by simp [children])
    have inits : ∀ binding ∈ bindings, fit binding.2 := fun binding member =>
      hereditary _ fits binding.2 (List.mem_cons_of_mem _ (List.mem_map_of_mem member))
    rw [Lowering.expr, check]
    exact .currentFunction fun func mine => withBindings mine bindings names inits (expr body _ inner)

theorem stepValue : (step : Option Expr) → (names : List String) → (∀ inner, step = some inner → fit inner) →
    Composed own fit known names (Lowering.stepValue step) (checkStep known names step)
  | none, names, _ => by
    rw [Lowering.stepValue, checkStep]
    exact .pure _
  | some step, names, fits => by
    rw [Lowering.stepValue, checkStep]
    exact expr step names (fits step rfl)

theorem arguments : (args : List Expr) → (names : List String) → (∀ arg ∈ args, fit arg) →
    Composed own fit known names (Lowering.arguments args) (checkArgs known names args)
  | [], names, _ => by
    rw [Lowering.arguments, checkArgs]
    exact .pure _
  | arg :: args, names, fits => by
    obtain ⟨first, others⟩ := List.forall_mem_cons.mp fits
    rw [Lowering.arguments, checkArgs]
    exact (expr arg names first).bind fun value => (arguments args names others).before fun values => .pure _

theorem withBindings : {func : Nat} → own func → (bindings : List (String × Expr)) → (names : List String) →
    (∀ binding ∈ bindings, fit binding.2) → {body : Lowering Operand} → {verdict : Except LoweringError Unit} →
    Composed own fit known (boundNames names bindings) body verdict →
    Composed own fit known names (Lowering.withBindings (bindEach func bindings []) body)
      (checkBindings known names bindings >>= fun _ => verdict)
  | _, _, [], names, _, _, _, inner => by
    rw [withBindings_nil, checkBindings]
    exact inner
  | _, mine, (name, init) :: bindings, names, fits, _, _, inner => by
    obtain ⟨first, others⟩ := List.forall_mem_cons.mp fits
    rw [withBindings_cons, checkBindings, bind_assoc]
    refine (expr init names first).bind fun value => .after (newVariable mine name value) fun slot => ?_
    exact .withName (withBindings mine bindings (name :: names) others inner)

end

end Composed

end Lowering

end Kaleidoscope
