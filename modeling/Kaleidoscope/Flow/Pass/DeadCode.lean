import Kaleidoscope.Flow.Function

/-!
Removes instructions whose result is not used, and stores to slots that are never loaded, until none is left.
-/

namespace Kaleidoscope.Flow.Function

def loadedSlots (f : Function) : List Nat :=
  f.liveInsts.filterMap fun id => (f.instr? id).bind Instr.loadedSlot?

def isDead (f : Function) (used loaded : List Nat) (id : Nat) : Bool :=
  match f.instr? id with
  | some (.store _ (.inst slot)) => f.isSlot slot && !loaded.contains slot
  | some instr => instr.isPure && !used.contains id
  | none => false

def deadInsts (f : Function) : List Nat :=
  let used := f.usedIds
  let loaded := f.loadedSlots
  f.liveInsts.filter (f.isDead used loaded)

theorem blockInsts_unlink (f : Function) (dead : List Nat) (block : Nat) :
    (f.unlink dead).blockInsts block = (f.blockInsts block).filter (!dead.contains ·) := by
  simp only [blockInsts, block?, unlink, Array.getElem?_map]
  cases f.blocks[block]? <;> rfl

theorem liveInsts_unlink (f : Function) (dead : List Nat) :
    (f.unlink dead).liveInsts = f.liveInsts.filter (!dead.contains ·) := by
  simp only [liveInsts, List.filter_flatMap]
  congr 1
  funext block
  exact blockInsts_unlink f dead block

theorem liveInsts_unlink_shorter {f : Function} {dead : List Nat} (found : f.deadInsts = dead)
    (nonempty : dead ≠ []) : (f.unlink dead).liveInsts.length < f.liveInsts.length := by
  obtain ⟨id, member⟩ := List.exists_mem_of_ne_nil dead nonempty
  rw [liveInsts_unlink]
  refine List.length_filter_lt_length_iff_exists.mpr ⟨id, ?_, by simpa using member⟩
  rw [← found] at member
  exact (List.mem_filter.mp member).1

def removeDeadCode (f : Function) : Function × Bool :=
  let dead := f.deadInsts
  if _nonempty : dead ≠ [] then
    ((removeDeadCode (f.unlink dead)).1, true)
  else
    (f, false)
termination_by f.liveInsts.length
decreasing_by exact liveInsts_unlink_shorter rfl ‹_›

end Kaleidoscope.Flow.Function
