import Kaleidoscope.Proofs.Flow.Growth
import Kaleidoscope.Proofs.Machine.Action
import Kaleidoscope.Proofs.Meaning.Agreement

/-!
Where a run stands in the code of a finished function, and how it gets from one instruction to the next.
-/

namespace Kaleidoscope

open Kaleidoscope.Flow Kaleidoscope.Machine

namespace Machine

theorem Slots.read_write_self (slots : Slots) (id : Nat) (value : Double) :
    (slots.write id value).read id = value := by
  rw [Slots.read_write, if_pos rfl]

namespace Frame

/-- The frame stands in `f` where the code built up to `site` ends. -/
structure At (x : Frame) (f : Function) (site : Site) : Prop where
  func : x.func = f
  block : x.block = site.block
  rest : x.rest = (f.code site.block).drop (site.func.code site.block).length
  values : x.values.size = f.insts.size

/-- The frame `y` comes after `x`; nothing has been computed again below the number `bound`. -/
structure Keeps (bound : Nat) (x y : Frame) : Prop where
  args : y.args = x.args
  depth : y.depth = x.depth
  values : ∀ id < bound, y.values[id]? = x.values[id]?

variable {x y z : Frame} {f : Function} {site : Site} {bound : Nat}

theorem Keeps.refl (bound : Nat) (x : Frame) : Keeps bound x x := ⟨rfl, rfl, fun _ _ => rfl⟩

theorem Keeps.trans {later : Nat} (first : Keeps bound x y) (second : Keeps later y z) (more : bound ≤ later) :
    Keeps bound x z :=
  ⟨second.args.trans first.args, second.depth.trans first.depth,
    fun id below => (second.values id (Nat.lt_of_lt_of_le below more)).trans (first.values id below)⟩

theorem Keeps.mono {fewer : Nat} (keeps : Keeps bound x y) (less : fewer ≤ bound) : Keeps fewer x y :=
  (Keeps.refl fewer x).trans keeps less

theorem Keeps.read {operand : Operand} {value : Double} (keeps : Keeps bound x y)
    (older : ∀ id, operand = .inst id → id < bound) (reads : x.read operand = .ok value) :
    y.read operand = .ok value := by
  cases operand with
  | const value => exact reads
  | param index =>
    rw [← reads]
    simp only [Frame.read, keeps.args]
  | inst id =>
    rw [← reads]
    simp only [Frame.read, keeps.values id (older id rfl)]
  | undef => simp [Frame.read] at reads

/-- The next instruction at the end of some code is the one that was added there. -/
theorem At.next {waiting : Nat → Prop} {instr : Instr} {name : String} (stands : x.At f site)
    (shape : site.Shape waiting) (plain : instr.isSlot = false)
    (grows : (site.push instr name).func.Grows f) :
    f.instr? site.func.insts.size = some instr ∧ ∃ rest, x.rest = site.func.insts.size :: rest ∧
      rest = (f.code site.block).drop ((site.push instr name).func.code site.block).length := by
  have code : (site.push instr name).func.code site.block =
      site.func.code site.block ++ [site.func.insts.size] :=
    (shape.arranged.code_addInst shape.here plain name site.block).trans (if_pos rfl)
  refine ⟨grows.instrs _ _ (by rw [Site.instr?_push, if_pos rfl]), _, ?_, rfl⟩
  obtain ⟨more, whole⟩ := grows.code site.block
  rw [stands.rest, ← whole, code]
  simp

theorem At.addBlock (stands : x.At f site) (name : String) : x.At f (site.addBlock name) := by
  have same : (site.addBlock name).func.code site.block = site.func.code site.block := by
    unfold Function.code
    rw [Site.addBlock, Function.blockInsts_addBlock]
    rfl
  exact ⟨stands.func, stands.block, by rw [stands.rest, Site.addBlock_block, same], stands.values⟩

theorem At.addSlot (stands : x.At f site) (arranged : site.func.Arranged) (name : String) :
    x.At f (site.addSlot name) := by
  have same : (site.addSlot name).func.code site.block = site.func.code site.block := by
    rw [Site.addSlot_func arranged, arranged.code_addSlotTo]
  exact ⟨stands.func, stands.block, by rw [stands.rest, Site.addSlot_block, same], stands.values⟩

theorem Keeps.setValue (x : Frame) (id : Nat) (value : Double) (rest : List Nat) :
    Keeps id x ({ x with rest := rest }.setValue id value) :=
  ⟨rfl, rfl, fun other below => by simp [Frame.setValue, Nat.ne_of_gt below]⟩

theorem Keeps.writeSlot (bound : Nat) (x : Frame) (id : Nat) (value : Double) (rest : List Nat) :
    Keeps bound x ({ x with rest := rest }.writeSlot id value) :=
  ⟨rfl, rfl, fun _ _ => rfl⟩

end Frame

end Machine

namespace Agrees

variable {σ α : Type} [Output σ] {m : Module} {limits : Limits} {left : Nat} {state : State σ} {f : Function}
  {site : Site} {waiting : Nat → Prop} {evaluation : Port σ → Option (Except Fault (α × Cells) × Port σ)}
  {after : α → Cells → Frame → Prop} {instr : Instr} {name : String}

/-- An instruction that computes a value. -/
theorem compute {value : Double} (stands : state.frame.At f site) (shape : site.Shape waiting)
    (grows : (site.push instr name).func.Grows f) (computes : state.frame.Computes instr value)
    (later : ∀ frame : Frame, ∀ fewer < left, frame.At f (site.push instr name) →
      state.frame.Keeps site.func.insts.size frame → frame.slots = state.frame.slots →
      frame.read site.next = .ok value →
      Agrees m limits fewer { state with frame := frame } evaluation after) :
    Agrees m limits left state evaluation after := by
  obtain ⟨found, rest, goesOn, same⟩ := stands.next shape computes.plain grows
  rw [← stands.func] at found
  refine step goesOn ((State.step_eq found rest).trans (computes.exec _ rest)) fun fewer bound => ?_
  refine later _ fewer bound ⟨stands.func, stands.block, same, ?_⟩ (.setValue _ _ _ _) rfl ?_
  · simpa [Frame.setValue] using stands.values
  · have inside : site.func.insts.size < state.frame.values.size := by
      rw [stands.values, ← stands.func]
      exact Function.instr?_lt found
    simp [Frame.read, Site.next, Frame.setValue, inside]

/-- A store to a slot. -/
theorem store {operand : Operand} {slot : Nat} {value : Double} (stands : state.frame.At f site)
    (shape : site.Shape waiting) (grows : (site.push (.store operand (.inst slot)) name).func.Grows f)
    (reads : state.frame.read operand = .ok value)
    (later : ∀ frame : Frame, ∀ fewer < left, frame.At f (site.push (.store operand (.inst slot)) name) →
      (∀ bound, state.frame.Keeps bound frame) → frame.slots = state.frame.slots.write slot value →
      Agrees m limits fewer { state with frame := frame } evaluation after) :
    Agrees m limits left state evaluation after := by
  obtain ⟨found, rest, goesOn, same⟩ := stands.next shape rfl grows
  rw [← stands.func] at found
  have stores : { state with frame := { state.frame with rest := rest } }.exec m limits site.func.insts.size
      (.store operand (.inst slot)) = .running { state with
        frame := { state.frame with rest := rest }.writeSlot slot value } := by
    simp only [State.exec, Frame.read_rest, reads]
  refine step goesOn ((State.step_eq found rest).trans stores) fun fewer bound => ?_
  exact later _ fewer bound ⟨stands.func, stands.block, same, stands.values⟩
    (fun bound => .writeSlot bound _ _ _ _) rfl

/-- A jump to a block that had no code yet when `target` was reached. -/
theorem jump (target : Site) (stands : state.frame.At f site) (shape : site.Shape waiting)
    (plain : instr.isSlot = false) (grows : (site.push instr name).func.Grows f) (arranged : f.Arranged)
    (inside : target.block < f.blocks.size) (notFirst : target.block ≠ 0)
    (empty : target.func.blockInsts target.block = [])
    (jumps : ∀ rest, { state with frame := { state.frame with rest := rest } }.exec m limits
      site.func.insts.size instr =
        { state with frame := { state.frame with rest := rest } }.continueWith
          ({ state.frame with rest := rest }.goto target.block))
    (later : ∀ frame : Frame, ∀ fewer < left, frame.At f target →
      (∀ bound, state.frame.Keeps bound frame) → frame.slots = state.frame.slots →
      Agrees m limits fewer { state with frame := frame } evaluation after) :
    Agrees m limits left state evaluation after := by
  obtain ⟨found, rest, goesOn, _⟩ := stands.next shape plain grows
  rw [← stands.func] at found
  have block : state.frame.func.block? target.block = some f.blocks[target.block] := by
    rw [stands.func]
    exact Array.getElem?_eq_getElem inside
  have steps : state.step m limits site.func.insts.size rest = .running { state with
      frame := { state.frame with block := target.block, rest := f.blocks[target.block].insts } } := by
    rw [State.step_eq found rest, jumps rest]
    simp only [Frame.goto, block]
    rfl
  have code : f.blocks[target.block].insts = f.code target.block := by
    rw [← Function.blockInsts_of_lt f _ inside]
    exact (List.filter_eq_self.mpr fun id member => by simp [arranged.slots _ notFirst id member]).symm
  refine step goesOn steps fun fewer bound => ?_
  refine later _ fewer bound ⟨stands.func, rfl, ?_, stands.values⟩ (fun bound => ⟨rfl, rfl, fun _ _ => rfl⟩) rfl
  have none : target.func.code target.block = [] := by
    rw [Function.code, empty]
    rfl
  rw [code, none]
  rfl

end Agrees

end Kaleidoscope
