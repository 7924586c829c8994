import Kaleidoscope.Flow.Pass
import Kaleidoscope.Proofs.Flow.Heads

/-!
What no pass touches: the head of a function, its layout, and the numbers of its blocks and instructions.
-/

namespace Kaleidoscope.Flow

namespace Function

structure Kept (f g : Function) : Prop where
  head : g.head = f.head
  layout : g.layout = f.layout
  blockNames : g.blocks.map Block.name = f.blocks.map Block.name
  size : g.insts.size = f.insts.size

variable {f g h : Function}

theorem Kept.refl (f : Function) : f.Kept f := ⟨rfl, rfl, rfl, rfl⟩

theorem Kept.trans (first : f.Kept g) (second : g.Kept h) : f.Kept h :=
  ⟨second.head.trans first.head, second.layout.trans first.layout, second.blockNames.trans first.blockNames,
    second.size.trans first.size⟩

theorem Kept.name (kept : f.Kept g) : g.name = f.name := congrArg Head.name kept.head

theorem Kept.params (kept : f.Kept g) : g.params = f.params := congrArg Head.params kept.head

theorem Kept.blocks (kept : f.Kept g) : g.blocks.size = f.blocks.size := by
  simpa using congrArg Array.size kept.blockNames

theorem kept_replaceAllUses (f : Function) (id : Nat) (value : Operand) : f.Kept (f.replaceAllUses id value) :=
  ⟨rfl, rfl, rfl, by simp [replaceAllUses]⟩

theorem kept_unlink (f : Function) (dead : List Nat) : f.Kept (f.unlink dead) :=
  ⟨rfl, rfl, by simp [unlink, Function.comp_def], rfl⟩

private theorem kept_replaceAll (replacements : Replacements) (f : Function) : f.Kept (f.replaceAll replacements) := by
  induction replacements generalizing f with
  | nil => exact .refl f
  | cons entry replacements ih => exact (f.kept_replaceAllUses entry.1 entry.2).trans (ih _)

private theorem kept_foldInst (state : Function × Bool) (id : Nat) : state.1.Kept (foldInst state id).1 := by
  unfold foldInst
  split
  · exact kept_replaceAllUses _ _ _
  · exact .refl _

private theorem kept_foldl_foldInst (ids : List Nat) (state : Function × Bool) :
    state.1.Kept (ids.foldl foldInst state).1 := by
  induction ids generalizing state with
  | nil => exact .refl _
  | cons id ids ih => exact (kept_foldInst state id).trans (ih _)

private theorem kept_removeDeadCode (f : Function) : f.Kept f.removeDeadCode.1 := by
  induction f using removeDeadCode.induct with
  | case1 f dead nonempty ih =>
    rw [removeDeadCode, dif_pos nonempty]
    exact (f.kept_unlink dead).trans ih
  | case2 f dead none =>
    rw [removeDeadCode, dif_neg none]
    exact .refl f

end Function

namespace Pass

private theorem kept_apply (pass : Pass) (f : Function) : f.Kept (pass.apply f).1 := by
  cases pass with
  | forwardStores => exact Function.kept_replaceAll _ f
  | foldConstants => exact Function.kept_foldl_foldInst _ (f, false)
  | removeDeadCode => exact f.kept_removeDeadCode

theorem kept_runAll (passes : List Pass) (f : Function) : f.Kept (runAll passes f).1 := by
  induction passes generalizing f with
  | nil => exact .refl f
  | cons pass passes ih => exact (pass.kept_apply f).trans (ih _)

end Pass

end Kaleidoscope.Flow
