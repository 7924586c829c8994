import Kaleidoscope.Proofs.Lowering.Draft
import Kaleidoscope.Proofs.Meaning.Cells

/-!
The code of expressions does what evaluating them does.
-/

namespace Kaleidoscope

open Kaleidoscope.Flow Kaleidoscope.Machine

/-- A frame `y` that has come from `x` to the end of the code before `t`. -/
structure Done (f : Function) (scope : Scope) (x : Frame) (bound : Nat) (t : Site) (cells : Cells) (y : Frame) :
    Prop where
  stands : y.At f t
  holds : Holds y.slots scope cells
  keeps : x.Keeps bound y

namespace Evaluator

variable {σ : Type} [Output σ] (e : Evaluator σ) (f : Function) (scope : Scope)

/-- The code from `s` to `t` computes what `x` evaluates to, and leaves it where `reads` looks for it. -/
def Simulates {α : Type} (x : Evaluation σ α) (s t : Site) (reads : α → Frame → Prop) : Prop :=
  ∀ left ≤ e.fuel, ∀ (state : State σ) (cells : Cells), e.depth = state.frame.depth → state.frame.At f s →
    Holds state.frame.slots scope cells → Agrees e.module e.limits left state (x cells) fun value cells y =>
      Done f scope state.frame s.func.insts.size t cells y ∧ reads value y

variable {e : Evaluator σ} {f : Function} {scope : Scope} {s t : Site} {waiting : Nat → Prop}
  {said : Nat → List Nat}

theorem readAll_cons {y : Frame} {operand : Operand} {operands : List Operand} {values : List Double}
    (reads : y.readAll (operand :: operands) = .ok values) :
    ∃ value others, values = value :: others ∧ y.read operand = .ok value ∧ y.readAll operands = .ok others := by
  simp only [Frame.readAll] at reads
  split at reads
  · contradiction
  · next value found =>
    split at reads
    · contradiction
    · next others found' =>
      cases reads
      exact ⟨value, others, rfl, found, found'⟩

theorem simulates_one {expr : Expr} {v : Operand}
    (simulates : e.Simulates f scope (e.arguments [expr]) s t fun values y => y.readAll [v] = .ok values) :
    e.Simulates f scope (e.expr expr) s t fun value y => y.read v = .ok value := by
  intro left enough state cells depth stands holds
  have packed := simulates left enough state cells depth stands holds
  simp only [arguments, pure_bind] at packed
  refine packed.unpack.mono fun value cells y ⟨done, reads⟩ => ⟨done, ?_⟩
  obtain ⟨_, _, same, found, _⟩ := readAll_cons reads
  cases same
  exact found

theorem simulates_all {expr : Expr} {v : Operand}
    (simulates : e.Simulates f scope (e.expr expr) s t fun value y => y.read v = .ok value) :
    e.Simulates f scope (e.arguments [expr]) s t fun values y => y.readAll [v] = .ok values := by
  intro left enough state cells depth stands holds
  simp only [arguments, pure_bind]
  refine (simulates left enough state cells depth stands holds).bind ?_
  intro value cells port frame rest fewer ⟨done, reads⟩
  exact .pure ⟨done, by simp only [Frame.readAll, reads]⟩

/-- The code of a variable. -/
theorem var_simulates {name : String} {slot : Operand} (draft : s.Draft waiting said)
    (bound : scope.lookup name = some slot) (grows : (s.push (.load slot) name).func.Grows f) :
    e.Simulates f scope (e.expr (.var name)) s (s.push (.load slot) name)
      fun value y => y.read s.next = .ok value := by
  intro left enough state cells depth stands holds
  obtain ⟨id, same, held⟩ := holds.lookup bound
  subst same
  rw [expr, Evaluation.read_apply held]
  refine .compute stands draft.shape grows .load ?_
  intro frame fewer _ stands keeps slots reads
  exact .pure ⟨⟨stands, slots ▸ holds, keeps⟩, reads⟩

/-- The code of an assignment. -/
theorem assign_simulates {name : String} {slot v : Operand} {value : Expr} (draft : t.Draft waiting said)
    (inHand : t.InHand said (v, .real)) (size : s.func.insts.size ≤ t.func.insts.size)
    (distinct : (scope.map Prod.snd).Nodup) (bound : scope.lookup name = some slot)
    (grows : (t.push (.store v slot) "").func.Grows f)
    (simulates : e.Simulates f scope (e.expr value) s t fun value y => y.read v = .ok value) :
    e.Simulates f scope (e.expr (.binary '=' (.var name) value)) s (t.push (.store v slot) "")
      fun value y => y.read v = .ok value := by
  intro left enough state cells depth stands holds
  rw [expr, if_pos rfl]
  refine (simulates left enough state cells depth stands holds).bind ?_
  intro value cells port frame rest fewer ⟨⟨stands, holds, keeps⟩, reads⟩
  obtain ⟨id, same, held⟩ := holds.lookup bound
  subst same
  refine .store stands draft.shape grows reads ?_
  intro frame' fewer _ stands keeps' slots
  rw [Evaluation.bind_of_apply (Evaluation.assign_apply value held)]
  refine .pure ⟨⟨stands, ?_, keeps.trans (keeps' _) size⟩, (keeps' _).read (inHand.older) reads⟩
  rw [slots]
  exact holds.assign value distinct bound

theorem readAll_two {y : Frame} {a b : Operand} {values : List Double} (reads : y.readAll [a, b] = .ok values) :
    ∃ l r, values = [l, r] ∧ y.read a = .ok l ∧ y.read b = .ok r := by
  obtain ⟨l, _, rfl, left, reads⟩ := readAll_cons reads
  obtain ⟨r, _, rfl, right, none⟩ := readAll_cons reads
  cases none
  exact ⟨l, r, rfl, left, right⟩

/-- An operator evaluates its operands first, the left one before the right one. -/
theorem expr_binary {op : Char} (other : op ≠ '=') (lhs rhs : Expr) :
    e.expr (.binary op lhs rhs) = e.arguments [lhs, rhs] >>= fun
      | [l, r] => e.operator op l r
      | _ => Evaluation.stuck := by
  simp only [expr, if_neg other, arguments, bind_assoc, pure_bind]

/-- What remains of an operator once its operands have been computed. -/
theorem binary_simulates {op : Char} {lhs rhs : Expr} {l r v : Operand} {u : Site} (other : op ≠ '=')
    (size : s.func.insts.size ≤ t.func.insts.size)
    (operands : e.Simulates f scope (e.arguments [lhs, rhs]) s t fun values y => y.readAll [l, r] = .ok values)
    (later : ∀ left ≤ e.fuel, ∀ (state : State σ) (cells : Cells) (a b : Double), e.depth = state.frame.depth →
      state.frame.At f t → Holds state.frame.slots scope cells →
      state.frame.read l = .ok a → state.frame.read r = .ok b →
      Agrees e.module e.limits left state (e.operator op a b cells) fun value cells y =>
        Done f scope state.frame t.func.insts.size u cells y ∧ y.read v = .ok value) :
    e.Simulates f scope (e.expr (.binary op lhs rhs)) s u fun value y => y.read v = .ok value := by
  intro left enough state cells depth stands holds
  rw [expr_binary other]
  refine (operands left enough state cells depth stands holds).bind ?_
  intro values cells port frame rest fewer ⟨⟨stands, holds, keeps⟩, reads⟩
  obtain ⟨a, b, same, left, right⟩ := readAll_two reads
  subst same
  refine (later rest (Nat.le_trans fewer enough) ⟨frame, state.callers, port⟩ cells a b
    (depth.trans keeps.depth.symm) stands holds left right).mono ?_
  rintro value cells y ⟨⟨stands, holds, keeps'⟩, reads⟩
  exact ⟨⟨stands, holds, keeps.trans keeps' size⟩, reads⟩

theorem arith_simulates {op : Char} {instr : Arith} {hint : String} {lhs rhs : Expr} {l r : Operand}
    (known : Expr.arithmetic? op = some (instr, hint)) (draft : t.Draft waiting said)
    (size : s.func.insts.size ≤ t.func.insts.size) (grows : (t.arith instr l r hint).2.func.Grows f)
    (operands : e.Simulates f scope (e.arguments [lhs, rhs]) s t fun values y => y.readAll [l, r] = .ok values) :
    e.Simulates f scope (e.expr (.binary op lhs rhs)) s (t.arith instr l r hint).2
      fun value y => y.read (t.arith instr l r hint).1 = .ok value := by
  have applies : op ≠ '=' ∧ ∀ a b, e.operator op a b = pure (instr.apply a b) := by
    unfold Expr.arithmetic? at known
    split at known <;> first | contradiction | (cases known; exact ⟨by decide, fun _ _ => rfl⟩)
  refine binary_simulates applies.1 size operands ?_
  intro left enough state cells a b depth stands holds readsLeft readsRight
  rw [applies.2]
  rcases t.arith_cases instr l r hint with ⟨_, _, rfl, rfl, folded⟩ | emitted
  · -- Both operands are constants, and there is no code.
    rw [folded]
    cases readsLeft
    cases readsRight
    exact .pure ⟨⟨stands, holds, .refl _ _⟩, rfl⟩
  · rw [emitted] at grows ⊢
    refine .compute stands draft.shape grows (.arith readsLeft readsRight) ?_
    intro frame fewer _ stands keeps slots reads
    exact .pure ⟨⟨stands, slots ▸ holds, keeps⟩, reads⟩

theorem less_simulates {lhs rhs : Expr} {l r : Operand} (draft : t.Draft waiting said)
    (tested : (t.push (.compare .less l r) "cmptmp").Draft waiting said)
    (size : s.func.insts.size ≤ t.func.insts.size)
    (grows : ((t.push (.compare .less l r) "cmptmp").push (.toReal t.next) "booltmp").func.Grows f)
    (operands : e.Simulates f scope (e.arguments [lhs, rhs]) s t fun values y => y.readAll [l, r] = .ok values) :
    e.Simulates f scope (e.expr (.binary '<' lhs rhs)) s
      ((t.push (.compare .less l r) "cmptmp").push (.toReal t.next) "booltmp")
      fun value y => y.read (t.push (.compare .less l r) "cmptmp").next = .ok value := by
  refine binary_simulates (by decide) size operands ?_
  intro left enough state cells a b depth stands holds readsLeft readsRight
  refine .compute stands draft.shape ((tested.shape.grows_push rfl "booltmp").trans grows)
    (.compare readsLeft readsRight) ?_
  intro frame fewer _ stands keeps slots reads
  refine .compute stands tested.shape grows (.toReal reads) ?_
  intro frame' fewer' _ stands keeps' slots' reads
  rw [Double.truthy_ofBool] at reads
  refine .pure ⟨⟨stands, ?_, keeps.trans keeps' ?_⟩, reads⟩
  · rw [slots', slots]
    exact holds
  · simp

/-- A call once its arguments have been computed. -/
theorem call_agrees {name hint : String} {callee : Nat} {args : List Operand} {values : List Double} {left : Nat}
    {state : State σ} {cells : Cells} (draft : t.Draft waiting said) (resolved : e.resolve name = some callee)
    (grows : (t.push (.call callee args) hint).func.Grows f) (enough : left ≤ e.fuel)
    (depth : e.depth = state.frame.depth) (stands : state.frame.At f t)
    (holds : Holds state.frame.slots scope cells) (reads : state.frame.readAll args = .ok values) :
    Agrees e.module e.limits left state (e.call name values cells) fun value cells y =>
      Done f scope state.frame t.func.insts.size (t.push (.call callee args) hint) cells y ∧
        y.read t.next = .ok value := by
  obtain ⟨found, rest, goesOn, same⟩ := stands.next draft.shape rfl grows
  have inside := Function.instr?_lt found
  rw [← stands.func] at found
  obtain ⟨⟨instr, hint'⟩, has, equal⟩ := Option.map_eq_some_iff.mp found
  cases equal
  refine (Agrees.call enough depth resolved goesOn has reads).mono ?_
  rintro value cells' y ⟨rfl, rfl⟩
  refine ⟨⟨⟨stands.func, stands.block, same, ?_⟩, holds, .setValue _ _ _ _⟩, ?_⟩
  · simpa [Frame.setValue] using stands.values
  · rw [← stands.values] at inside
    simp [Frame.read, Site.next, Frame.setValue, inside]

/-- The code of a call of a function by name. -/
theorem call_simulates {name hint : String} {callee : Nat} {args : List Expr} {vs : List Operand}
    (draft : t.Draft waiting said) (resolved : e.resolve name = some callee)
    (size : s.func.insts.size ≤ t.func.insts.size) (grows : (t.push (.call callee vs) hint).func.Grows f)
    (simulates : e.Simulates f scope (e.arguments args) s t fun values y => y.readAll vs = .ok values) :
    e.Simulates f scope (e.arguments args >>= e.call name) s (t.push (.call callee vs) hint)
      fun value y => y.read t.next = .ok value := by
  intro left enough state cells depth stands holds
  refine (simulates left enough state cells depth stands holds).bind ?_
  intro values cells port frame rest fewer ⟨⟨stands, holds, keeps⟩, reads⟩
  refine Agrees.mono (call_agrees draft resolved grows (Nat.le_trans fewer enough)
    (depth.trans keeps.depth.symm) stands holds reads) ?_
  intro value cells y ⟨⟨stands, holds, keeps'⟩, reads⟩
  exact ⟨⟨stands, holds, keeps.trans keeps' size⟩, reads⟩

theorem expr_unary (op : Char) (operand : Expr) :
    e.expr (.unary op operand) = e.arguments [operand] >>= e.call (Prototype.unaryName op) := by
  simp only [expr, arguments, bind_assoc, pure_bind]

theorem expr_call (name : String) (args : List Expr) :
    e.expr (.call name args) = e.arguments args >>= e.call name := by
  rw [expr]

/-- The operators that are not built in are functions. -/
theorem expr_operator {op : Char} (user : op ≠ '=' ∧ op ≠ '<' ∧ Expr.arithmetic? op = none) (lhs rhs : Expr) :
    e.expr (.binary op lhs rhs) = e.arguments [lhs, rhs] >>= e.call (Prototype.binaryName op) := by
  obtain ⟨assign, less, arith⟩ := user
  have called : ∀ l r, e.operator op l r = e.call (Prototype.binaryName op) [l, r] := by
    intro l r
    unfold operator
    split <;> first | contradiction | rfl
  simp only [expr, if_neg assign, arguments, bind_assoc, pure_bind, called]

end Evaluator

end Kaleidoscope
