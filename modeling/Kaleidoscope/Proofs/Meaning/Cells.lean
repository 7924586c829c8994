import Kaleidoscope.Proofs.Lowering.Code
import Kaleidoscope.Proofs.Meaning.Position

/-!
Variables in slots: the slots of the variables in scope hold what evaluation has in its cells.
-/

namespace Kaleidoscope

open Kaleidoscope.Flow Kaleidoscope.Machine

inductive Holds (slots : Slots) : Scope → Cells → Prop where
  | nil : Holds slots [] []
  | cons {name : String} {id : Nat} {value : Double} {scope : Scope} {cells : Cells}
      (held : slots.read id = value) (others : Holds slots scope cells) :
      Holds slots ((name, .inst id) :: scope) ((name, value) :: cells)

namespace Holds

variable {slots : Slots} {scope : Scope} {cells : Cells} {name : String} {slot : Operand}

theorem lookup (holds : Holds slots scope cells) (bound : scope.lookup name = some slot) :
    ∃ id, slot = .inst id ∧ cells.lookup name = some (slots.read id) := by
  induction holds with
  | nil => contradiction
  | @cons key id value scope cells held others ih =>
    rw [List.lookup_cons] at bound ⊢
    cases same : name == key with
    | true =>
      rw [same] at bound
      cases bound
      exact ⟨id, rfl, by rw [held]⟩
    | false =>
      rw [same] at bound
      exact ih bound

theorem tail {entry : String × Operand} (holds : Holds slots (entry :: scope) cells) :
    Holds slots scope cells.tail := by
  cases holds with
  | cons _ others => exact others

theorem write_other (holds : Holds slots scope cells) {id : Nat} (value : Double)
    (apart : .inst id ∉ scope.map Prod.snd) : Holds (slots.write id value) scope cells := by
  induction holds with
  | nil => exact .nil
  | @cons key other held scope cells same others ih =>
    simp only [List.map_cons, List.mem_cons, not_or, Operand.inst.injEq] at apart
    refine .cons ?_ (ih apart.2)
    rw [Slots.read_write, if_neg (Ne.symm apart.1), same]

/-- Writing to the slot of a name changes the innermost variable of that name and no other one. -/
theorem assign (holds : Holds slots scope cells) {id : Nat} (value : Double)
    (distinct : (scope.map Prod.snd).Nodup) (bound : scope.lookup name = some (.inst id)) :
    Holds (slots.write id value) scope (cells.set name value) := by
  induction holds with
  | nil => contradiction
  | @cons key other held scope cells same others ih =>
    rw [List.map_cons, List.nodup_cons] at distinct
    rw [List.lookup_cons] at bound
    unfold Cells.set
    by_cases here : key = name
    · subst here
      simp only [beq_self_eq_true, Option.some.injEq, Operand.inst.injEq] at bound
      subst bound
      rw [if_pos rfl]
      exact .cons (slots.read_write_self other value) (others.write_other value distinct.1)
    · have apart : (name == key) = false := by simpa using Ne.symm here
      simp only [apart] at bound
      rw [if_neg here]
      refine .cons ?_ (ih distinct.2 bound)
      have inScope : Operand.inst id ∈ scope.map Prod.snd := by
        obtain ⟨front, back, split, _⟩ := List.lookup_eq_some_iff.mp bound
        simp [split]
      have different : other ≠ id := fun equal => distinct.1 (equal ▸ inScope)
      rw [Slots.read_write, if_neg different, same]

end Holds

end Kaleidoscope
