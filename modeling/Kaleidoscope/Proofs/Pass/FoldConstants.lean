import Kaleidoscope.Proofs.Pass.Equation

/-!
Folding constants: arithmetic and comparisons on constants yield the same numbers wherever they are carried out.
-/

namespace Kaleidoscope.Flow.Function

open Kaleidoscope.Machine

variable {f : Function} {id block : Nat} {value : Double}

/-- A flag that compares constants. -/
theorem WellFormed.holds_compare (wellFormed : f.WellFormed) {rel : Comparison} {lhs rhs : Double}
    (member : id ∈ f.blockInsts block) (found : f.instr? id = some (.compare rel (.const lhs) (.const rhs))) :
    f.Holds id (.const (.ofBool (rel.holds lhs rhs))) := by
  have usable : f.Usable block id (.const (.ofBool (rel.holds lhs rhs)), .real) := rfl
  refine wellFormed.holds_computed usable member found rfl rfl ?_
  intro trail done rest x result reached here next computes
  cases computes with
  | compare left right =>
    cases left
    cases right
    rfl

theorem WellFormed.constant (wellFormed : f.WellFormed) (live : id ∈ f.liveInsts)
    (constant : f.constantResult? id = some value) : f.Equation id (.const value) := by
  obtain ⟨block, layout, member⟩ := List.mem_flatMap.mp live
  have usable : f.Usable block id (.const value, .real) := rfl
  unfold constantResult? at constant
  split at constant
  · next op lhs rhs found =>
    cases constant
    refine ⟨by simp [kindOf?, found, Instr.kind?], ⟨block, member, usable⟩, ?_⟩
    refine wellFormed.holds_computed usable member found rfl rfl ?_
    intro trail done rest x result reached here next computes
    cases computes with
    | arith left right =>
      cases left
      cases right
      rfl
  · next flag found =>
    split at constant
    · next rel lhs rhs compares =>
      cases constant
      refine ⟨by simp [kindOf?, found, Instr.kind?], ⟨block, member, usable⟩, ?_⟩
      have asked := wellFormed.operands block layout id member (.inst flag, .flag) (by
        simp [inputsOf, found, Instr.inputs])
      obtain ⟨above, layout', member'⟩ := List.mem_flatMap.mp asked.2.1
      refine wellFormed.holds_computed usable member found rfl rfl ?_
      rintro trail done rest x result reached rfl next computes
      have split := (reached.lies wellFormed).split
      rw [next] at split
      have flags := wellFormed.holds_compare member' compares trail done x reached (wellFormed.fits split asked).2.2
      cases computes with
      | toReal reads =>
        cases flags.trans reads
        rw [Double.truthy_ofBool]
        rfl
    · contradiction
  · contradiction

theorem WellFormed.foldInst {state : Function × Bool} (wellFormed : state.1.WellFormed)
    (live : id ∈ state.1.liveInsts) : state.1.Improves (foldInst state id).1 := by
  unfold Function.foldInst
  split
  · next value constant => exact wellFormed.replaceAllUses (wellFormed.constant live constant)
  · exact .refl wellFormed

theorem liveInsts_foldInst (state : Function × Bool) (id : Nat) :
    (foldInst state id).1.liveInsts = state.1.liveInsts := by
  unfold foldInst
  split <;> rfl

theorem WellFormed.foldConstants (wellFormed : f.WellFormed) : f.Improves f.foldConstants.1 := by
  -- The list is that of the first function, and stays that of all the functions on the way.
  have all : ∀ (ids : List Nat) (state : Function × Bool), state.1.WellFormed →
      (∀ id ∈ ids, id ∈ state.1.liveInsts) → state.1.Improves (ids.foldl Function.foldInst state).1 := by
    intro ids
    induction ids with
    | nil => exact fun state wellFormed _ => .refl wellFormed
    | cons id ids ih =>
      intro state wellFormed live
      obtain ⟨first, others⟩ := List.forall_mem_cons.mp live
      have improves := wellFormed.foldInst first
      refine improves.trans (ih _ improves.wellFormed ?_)
      rw [liveInsts_foldInst]
      exact others
  exact all f.liveInsts (f, false) wellFormed fun _ live => live

end Kaleidoscope.Flow.Function
