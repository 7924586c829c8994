import Kaleidoscope.Proofs.Pass.Equation

/-!
Removing dead code: nobody uses the result of a dead instruction or loads what a dead store has stored.
-/

namespace Kaleidoscope.Flow.Function

open Kaleidoscope.Machine

variable {f : Function} {id : Nat}

private theorem used_of_input (live : id ∈ f.liveInsts) {source : Nat} {kind : Kind}
    (asked : (.inst source, kind) ∈ f.inputsOf id) : source ∈ f.usedIds := by
  unfold inputsOf at asked
  split at asked
  · next instr found =>
    refine List.mem_flatMap.mpr ⟨id, live, List.mem_filterMap.mpr ⟨.inst source, ?_, rfl⟩⟩
    simp only [operandsOf, found, Instr.operands_eq_inputs]
    exact List.mem_map.mpr ⟨_, asked, rfl⟩
  · contradiction

private theorem used_of_loaded (loaded : id ∈ f.loadedSlots) : id ∈ f.usedIds := by
  obtain ⟨load, live, reads⟩ := List.mem_filterMap.mp loaded
  obtain ⟨instr, found, slot⟩ := Option.bind_eq_some_iff.mp reads
  have loads : instr = .load (.inst id) := by
    unfold Instr.loadedSlot? at slot
    split at slot
    · cases slot
      rfl
    · contradiction
  have asked : (.inst id, .place) ∈ f.inputsOf load := by simp [inputsOf, found, loads, Instr.inputs]
  exact used_of_input live asked

/-- What makes an instruction dead. -/
theorem dead_cases (dead : id ∈ f.deadInsts) :
    ∃ instr, f.instr? id = some instr ∧ (instr.isPure = true ∧ id ∉ f.usedIds ∨
      ∃ value slot, instr = .store value (.inst slot) ∧ slot ∉ f.loadedSlots) := by
  obtain ⟨_, dead⟩ := List.mem_filter.mp dead
  unfold isDead at dead
  split at dead
  · next value slot found => exact ⟨_, found, .inr ⟨value, slot, rfl, by simp_all⟩⟩
  · next instr _ found => exact ⟨instr, found, .inl (by simpa using dead)⟩
  · contradiction

theorem rewrites_unlink (f : Function) (dead : List Nat) :
    f.Rewrites (f.unlink dead) (fun operand => operand) dead :=
  ⟨f.kept_unlink dead, (Rewrites.refl f).instrs, f.blockInsts_unlink dead⟩

theorem WellFormed.unlink (wellFormed : f.WellFormed) : f.Improves (f.unlink f.deadInsts) := by
  refine (f.rewrites_unlink f.deadInsts).improves ⟨fun id dead instr found => ?_, ?_⟩ wellFormed
  · obtain ⟨instr, found', ⟨harmless, unused⟩ | ⟨value, slot, rfl, unread⟩⟩ := dead_cases dead
    · cases found.symm.trans found'
      exact .pure harmless fun loaded => unused (used_of_loaded loaded)
    · cases found.symm.trans found'
      exact .store unread
  · rintro block id member alive ⟨operand, kind⟩ asked
    have usable := wellFormed.operands block (wellFormed.mem_layout_of_mem member) id member _ asked
    refine ⟨usable, fun _ => rfl, ?_, fun _ _ _ _ _ _ _ => rfl⟩
    rintro source rfl dead
    obtain ⟨instr, found, ⟨_, unused⟩ | ⟨value, slot, rfl, _⟩⟩ := dead_cases dead
    · exact unused (used_of_input (wellFormed.live member) asked)
    · have kind := usable.1
      simp [kindOf?, found, Instr.kind?] at kind

theorem WellFormed.removeDeadCode (wellFormed : f.WellFormed) : f.Improves f.removeDeadCode.1 := by
  induction f using removeDeadCode.induct with
  | case1 f dead nonempty ih =>
    rw [Function.removeDeadCode, dif_pos nonempty]
    have improves := wellFormed.unlink
    exact improves.trans (ih improves.wellFormed)
  | case2 f dead none =>
    rw [Function.removeDeadCode, dif_neg none]
    exact .refl wellFormed

end Kaleidoscope.Flow.Function
