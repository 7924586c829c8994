import Kaleidoscope.Proofs.Flow.Site

/-!
The shape of a function under construction: slots stand at the top of the entry, the block at the insertion point
goes on, some blocks are still empty, and all others end with their terminator.
-/

namespace Kaleidoscope.Flow

namespace Function

variable {f g : Function} {id : Nat}

theorem isSlot_congr (same : g.instr? id = f.instr? id) : g.isSlot id = f.isSlot id := by
  simp only [isSlot, same]

private theorem isTerminator_congr (same : g.instr? id = f.instr? id) :
    g.isTerminator id = f.isTerminator id := by
  simp only [isTerminator, same]

private theorem isTerminator_of_isSlot (slot : f.isSlot id = true) : f.isTerminator id = false := by
  unfold isSlot at slot
  unfold isTerminator
  cases found : f.instr? id with
  | none => rfl
  | some instr =>
    simp only [found] at slot
    cases instr <;> first | rfl | contradiction

private theorem terminated_congr {insts : List Nat} (same : ∀ id ∈ insts, g.instr? id = f.instr? id)
    (terminated : f.Terminated insts) : g.Terminated insts := by
  obtain ⟨body, last, split, ends, before⟩ := terminated
  subst split
  refine ⟨body, last, rfl, ?_, fun id member => ?_⟩
  · rw [isTerminator_congr (same last (by simp)), ends]
  · rw [isTerminator_congr (same id (by simp [member])), before id member]

/-- Something that does not end a block can be put in front of its code. -/
theorem Terminated.insert {front back : List Nat} {id : Nat} (terminated : f.Terminated (front ++ back))
    (goesOn : ∀ id ∈ front, f.isTerminator id = false) (new : f.isTerminator id = false) :
    f.Terminated (front ++ id :: back) := by
  obtain ⟨body, last, split, ends, before⟩ := terminated
  rcases List.eq_nil_or_concat back with none | ⟨middle, final, same⟩
  · rw [none, List.append_nil] at split
    have inFront : last ∈ front := by simp [split]
    rw [goesOn last inFront] at ends
    contradiction
  · rw [List.concat_eq_append] at same
    rw [same, ← List.append_assoc] at split
    obtain ⟨bodies, lasts⟩ := List.append_inj' split rfl
    cases lasts
    refine ⟨front ++ id :: middle, last, by simp [same], ends, fun other member => ?_⟩
    rcases List.mem_append.mp member with inFront | later
    · exact goesOn other inFront
    · rcases List.mem_cons.mp later with here | inMiddle
      · rw [here, new]
      · exact before other (by simp [← bodies, inMiddle])

/-- Blocks as building leaves them, finished or not. -/
structure Arranged (f : Function) : Prop where
  entry : f.entry? = some 0
  entryName : (f.block? 0).map Block.name = some "entry"
  layout : f.layout.Perm (List.range f.blocks.size)
  inRange : ∀ block, ∀ id ∈ f.blockInsts block, id < f.insts.size
  once : ∀ block, (f.blockInsts block).Nodup
  apart : ∀ id first second, id ∈ f.blockInsts first → id ∈ f.blockInsts second → first = second
  slotsFirst : ∃ slots, f.blockInsts 0 = slots ++ f.code 0 ∧ ∀ id ∈ slots, f.isSlot id = true
  slots : ∀ block ≠ 0, ∀ id ∈ f.blockInsts block, f.isSlot id = false

/-- A new instruction somewhere in one block. -/
theorem Arranged.members (arranged : f.Arranged) (block : Nat) (size : g.insts.size = f.insts.size + 1)
    (added : (g.blockInsts block).Perm (f.insts.size :: f.blockInsts block))
    (others : ∀ other ≠ block, g.blockInsts other = f.blockInsts other) :
    (∀ block, ∀ id ∈ g.blockInsts block, id < g.insts.size) ∧ (∀ block, (g.blockInsts block).Nodup) ∧
      ∀ id first second, id ∈ g.blockInsts first → id ∈ g.blockInsts second → first = second := by
  have member : ∀ other, ∀ id ∈ g.blockInsts other,
      id ∈ f.blockInsts other ∨ id = f.insts.size ∧ other = block := by
    intro other id member
    by_cases same : other = block
    · subst same
      rcases List.mem_cons.mp (added.mem_iff.mp member) with new | old
      · exact .inr ⟨new, rfl⟩
      · exact .inl old
    · rw [others other same] at member
      exact .inl member
  have fresh : ∀ other, f.insts.size ∉ f.blockInsts other :=
    fun other old => Nat.lt_irrefl _ (arranged.inRange other _ old)
  refine ⟨fun other id inside => ?_, fun other => ?_, fun id first second inFirst inSecond => ?_⟩
  · rcases member other id inside with old | ⟨new, _⟩
    · have bound := arranged.inRange other id old
      omega
    · omega
  · by_cases same : other = block
    · subst same
      exact added.nodup_iff.mpr (List.nodup_cons.mpr ⟨fresh other, arranged.once other⟩)
    · rw [others other same]
      exact arranged.once other
  · rcases member first id inFirst with old | ⟨new, same⟩ <;>
      rcases member second id inSecond with old' | ⟨new', same'⟩
    · exact arranged.apart id first second old old'
    · exact absurd (new' ▸ old) (fresh first)
    · exact absurd (new ▸ old') (fresh second)
    · rw [same, same']

theorem blockName_modify (block other : Nat) (change : Block → Block)
    (kept : ∀ block, (change block).name = block.name) (blocks : Array Block) :
    ((blocks.modify block change)[other]?).map Block.name = (blocks[other]?).map Block.name := by
  rw [Array.getElem?_modify]
  split
  · cases blocks[other]? <;> simp [kept]
  · rfl

section

variable {block : Nat} {instr : Instr} {name : String}

private theorem instr?_addInst_of_lt (inst : Inst) (bound : id < f.insts.size) :
    (f.addInst block inst).2.instr? id = f.instr? id := by
  rw [instr?_addInst, if_neg (Nat.ne_of_lt bound)]

theorem Arranged.code_addInst (arranged : f.Arranged) (inside : block < f.blocks.size)
    (plain : instr.isSlot = false) (name : String) (other : Nat) :
    (f.addInst block ⟨instr, name⟩).2.code other =
      if other = block then f.code block ++ [f.insts.size] else f.code other := by
  have same : ∀ id ∈ f.blockInsts other,
      (!(f.addInst block ⟨instr, name⟩).2.isSlot id) = !f.isSlot id := fun id member => by
    rw [isSlot_congr (instr?_addInst_of_lt _ (arranged.inRange other id member))]
  have new : (f.addInst block ⟨instr, name⟩).2.isSlot f.insts.size = false := by
    simp [isSlot, instr?_addInst, plain]
  rw [code, blockInsts_addInst f block other _ inside]
  by_cases here : other = block
  · subst other
    simp only [if_pos, List.filter_append, List.filter_congr same, code]
    simp [new]
  · simp only [if_neg here, List.filter_congr same, code]

theorem Arranged.addInst (arranged : f.Arranged) (inside : block < f.blocks.size)
    (plain : instr.isSlot = false) : (f.addInst block ⟨instr, name⟩).2.Arranged := by
  have insts := fun other => blockInsts_addInst f block other ⟨instr, name⟩ inside
  obtain ⟨inRange, once, apart⟩ := arranged.members (g := (f.addInst block ⟨instr, name⟩).2) block
    (by simp [Function.addInst])
    (by rw [insts, if_pos rfl]; exact List.perm_append_comm)
    (fun other different => by rw [insts, if_neg different])
  refine ⟨arranged.entry, ?_, ?_, inRange, once, apart, ?_, ?_⟩
  · rw [← arranged.entryName]
    exact blockName_modify block 0 (fun b => { b with insts := b.insts ++ [f.insts.size] }) (fun _ => rfl)
      f.blocks
  · simpa [Function.addInst] using arranged.layout
  · obtain ⟨slots, split, all⟩ := arranged.slotsFirst
    have bound : ∀ id ∈ slots, id < f.insts.size := fun id member =>
      arranged.inRange 0 id (by rw [split]; exact List.mem_append_left _ member)
    refine ⟨slots, ?_, fun id member => ?_⟩
    · rw [insts, arranged.code_addInst inside plain]
      by_cases here : 0 = block
      · subst here
        rw [if_pos rfl, if_pos rfl, split, List.append_assoc]
      · rw [if_neg here, if_neg here, split]
    · rw [isSlot_congr (instr?_addInst_of_lt _ (bound id member)), all id member]
  · intro other outside id member
    rw [insts] at member
    have old : id ∈ f.blockInsts other ∨ id = f.insts.size := by
      split at member
      · next same =>
        subst same
        simpa using member
      · exact .inl member
    rcases old with old | new
    · rw [isSlot_congr (instr?_addInst_of_lt _ (arranged.inRange other id old))]
      exact arranged.slots other outside id old
    · simp [isSlot, instr?_addInst, new, plain]

/-- The slots at the top of the entry are all the slots there are. -/
theorem Arranged.entry_split (arranged : f.Arranged) :
    f.blockInsts 0 = (f.blockInsts 0).takeWhile f.isSlot ++ f.code 0 ∧
      (f.blockInsts 0).dropWhile f.isSlot = f.code 0 := by
  obtain ⟨slots, split, all⟩ := arranged.slotsFirst
  have none : ∀ id ∈ f.code 0, ¬ f.isSlot id = true := by
    intro id member
    simpa using (List.mem_filter.mp member).2
  have rest : (f.code 0).dropWhile f.isSlot = f.code 0 := by
    cases same : f.code 0 with
    | nil => rfl
    | cons id rest => rw [List.dropWhile_cons_of_neg (none id (by simp [same]))]
  have dropped : (f.blockInsts 0).dropWhile f.isSlot = f.code 0 := by
    rw [split, List.dropWhile_append_of_pos all, rest]
  exact ⟨by rw [← dropped, List.takeWhile_append_dropWhile], dropped⟩

private theorem instr?_addSlotTo_of_lt (bound : id < f.insts.size) :
    (f.addSlotTo block name).2.instr? id = f.instr? id := by
  rw [instr?_addSlotTo, if_neg (Nat.ne_of_lt bound)]

theorem Arranged.nonempty (arranged : f.Arranged) : 0 < f.blocks.size := by
  have first := List.mem_of_mem_head? arranged.entry
  simpa using arranged.layout.mem_iff.mp first

theorem Arranged.addSlot_eq (arranged : f.Arranged) (name : String) : f.addSlot name = f.addSlotTo 0 name := by
  rw [addSlot, arranged.entry]

/-- A new slot joins the slots at the top and leaves all other code alone. -/
theorem Arranged.code_addSlotTo (arranged : f.Arranged) (other : Nat) :
    (f.addSlotTo 0 name).2.code other = f.code other := by
  have same : ∀ id ∈ f.blockInsts other, (!(f.addSlotTo 0 name).2.isSlot id) = !f.isSlot id :=
    fun id member => by rw [isSlot_congr (instr?_addSlotTo_of_lt (arranged.inRange other id member))]
  have new : (f.addSlotTo 0 name).2.isSlot f.insts.size = true := by
    simp [isSlot, instr?_addSlotTo, Instr.isSlot]
  rw [code, blockInsts_addSlotTo f 0 other name arranged.nonempty]
  by_cases here : other = 0
  · subst other
    rw [if_pos rfl, code, ← List.filter_congr same]
    rw [List.filter_append, List.filter_cons_of_neg (by simp [new]), ← List.filter_append,
      List.takeWhile_append_dropWhile]
  · rw [if_neg here, code, List.filter_congr same]

theorem Arranged.addSlot (arranged : f.Arranged) : (f.addSlot name).2.Arranged := by
  rw [arranged.addSlot_eq]
  have insts := fun other => blockInsts_addSlotTo f 0 other name arranged.nonempty
  obtain ⟨inRange, once, apart⟩ := arranged.members (g := (f.addSlotTo 0 name).2) 0
    (by simp [addSlotTo])
    (by
      rw [insts, if_pos rfl]
      apply List.perm_middle.trans
      rw [List.takeWhile_append_dropWhile])
    (fun other different => by rw [insts, if_neg different])
  refine ⟨arranged.entry, ?_, ?_, inRange, once, apart, ?_, ?_⟩
  · rw [← arranged.entryName]
    exact blockName_modify 0 0 (fun b => { b with
      insts := (f.blockInsts 0).takeWhile f.isSlot ++ f.insts.size :: (f.blockInsts 0).dropWhile f.isSlot })
      (fun _ => rfl) f.blocks
  · simpa [addSlotTo] using arranged.layout
  · refine ⟨(f.blockInsts 0).takeWhile f.isSlot ++ [f.insts.size], ?_, fun id member => ?_⟩
    · rw [insts, if_pos rfl, arranged.code_addSlotTo, arranged.entry_split.2, List.append_assoc]
      rfl
    · rcases List.mem_append.mp member with old | new
      · have bound := arranged.inRange 0 id (List.takeWhile_subset _ old)
        rw [isSlot_congr (instr?_addSlotTo_of_lt bound)]
        exact List.all_eq_true.mp List.all_takeWhile id old
      · cases List.mem_singleton.mp new
        simp [isSlot, instr?_addSlotTo, Instr.isSlot]
  · intro other outside id member
    rw [insts, if_neg outside] at member
    rw [isSlot_congr (instr?_addSlotTo_of_lt (arranged.inRange other id member))]
    exact arranged.slots other outside id member

theorem Arranged.addBlock (arranged : f.Arranged) : (f.addBlock name).2.Arranged := by
  have insts := fun other => blockInsts_addBlock f other name
  have nonempty := arranged.nonempty
  constructor
  · simp only [Function.addBlock, entry?, List.head?_append]
    rw [show f.layout.head? = some 0 from arranged.entry]
    rfl
  · rw [← arranged.entryName]
    simp only [Function.addBlock, block?, Array.getElem?_push]
    rw [if_neg (by omega)]
  · simp only [Function.addBlock, Array.size_push, List.range_succ]
    exact arranged.layout.append_right _
  · simp only [insts]
    exact arranged.inRange
  · simp only [insts]
    exact arranged.once
  · simp only [insts]
    exact arranged.apart
  · simp only [code, insts]
    exact arranged.slotsFirst
  · simp only [insts]
    exact arranged.slots

theorem Arranged.moveToEnd (arranged : f.Arranged) (inside : block < f.blocks.size) (notFirst : block ≠ 0) :
    (f.moveToEnd block).Arranged := by
  refine ⟨?_, arranged.entryName, ?_, arranged.inRange, arranged.once, arranged.apart,
    arranged.slotsFirst, arranged.slots⟩
  · have first : f.layout.head? = some 0 := arranged.entry
    cases same : f.layout with
    | nil => rw [same] at first; contradiction
    | cons head tail =>
      rw [same] at first
      cases first
      simp [Function.moveToEnd, entry?, same, Ne.symm notFirst]
  · have member : block ∈ f.layout := arranged.layout.mem_iff.mpr (by simpa using inside)
    have unique : f.layout.Nodup := arranged.layout.nodup_iff.mpr List.nodup_range
    refine List.Perm.trans ?_ arranged.layout
    apply List.perm_append_comm.trans
    rw [← List.Nodup.erase_eq_filter unique]
    exact (List.perm_cons_erase member).symm

end

end Function

namespace Site

/-- Code goes on at the insertion point, `waiting` tells the blocks that have none yet, and the others are
finished. -/
structure Shape (site : Site) (waiting : Nat → Prop) : Prop where
  arranged : site.func.Arranged
  here : site.block < site.func.blocks.size
  started : ¬ waiting site.block
  running : ∀ id ∈ site.func.blockInsts site.block, site.func.isTerminator id = false
  empty : ∀ block, waiting block →
    block < site.func.blocks.size ∧ block ≠ 0 ∧ site.func.blockInsts block = []
  closed : ∀ block < site.func.blocks.size, block ≠ site.block → ¬ waiting block →
    site.func.Terminated (site.func.blockInsts block)

section

variable {site : Site} {waiting rest : Nat → Prop} {block : Nat}

theorem blockInsts_push (inside : site.block < site.func.blocks.size) (instr : Instr) (name : String)
    (other : Nat) :
    (site.push instr name).func.blockInsts other =
      if other = site.block then site.func.blockInsts site.block ++ [site.func.insts.size]
      else site.func.blockInsts other :=
  Function.blockInsts_addInst site.func site.block other ⟨instr, name⟩ inside

theorem instr?_push (site : Site) (instr : Instr) (name : String) (id : Nat) :
    (site.push instr name).func.instr? id =
      if id = site.func.insts.size then some instr else site.func.instr? id :=
  Function.instr?_addInst site.func site.block id ⟨instr, name⟩

variable {instr : Instr} {name : String}

private theorem Shape.instr?_push_old (shape : site.Shape waiting) {id : Nat}
    (member : id ∈ site.func.blockInsts block) :
    (site.push instr name).func.instr? id = site.func.instr? id := by
  rw [instr?_push, if_neg (Nat.ne_of_lt (shape.arranged.inRange block id member))]

theorem Shape.closed_push (shape : site.Shape waiting) (inside : block < site.func.blocks.size)
    (other : block ≠ site.block) (done : ¬ waiting block) :
    (site.push instr name).func.Terminated ((site.push instr name).func.blockInsts block) := by
  rw [blockInsts_push shape.here, if_neg other]
  exact Function.terminated_congr (fun _ member => shape.instr?_push_old member)
    (shape.closed block inside other done)

theorem Shape.empty_push (shape : site.Shape waiting) (waits : waiting block) :
    block < (site.push instr name).func.blocks.size ∧ block ≠ 0 ∧
      (site.push instr name).func.blockInsts block = [] := by
  obtain ⟨inside, notFirst, none⟩ := shape.empty block waits
  have apart : block ≠ site.block := fun same => shape.started (same ▸ waits)
  exact ⟨by simpa using inside, notFirst, by rw [blockInsts_push shape.here, if_neg apart, none]⟩

/-- The block at the insertion point once an instruction has been added. -/
theorem Shape.running_push (shape : site.Shape waiting) :
    ∀ id ∈ site.func.blockInsts site.block, (site.push instr name).func.isTerminator id = false := by
  intro id member
  rw [Function.isTerminator_congr (shape.instr?_push_old member)]
  exact shape.running id member

theorem Shape.push (shape : site.Shape waiting) (plain : instr.isSlot = false)
    (goesOn : instr.isTerminator = false) : (site.push instr name).Shape waiting := by
  refine ⟨shape.arranged.addInst shape.here plain, by simpa using shape.here,
    shape.started, fun id member => ?_, fun block => shape.empty_push,
    fun block inside => shape.closed_push (by simpa using inside)⟩
  rw [push_block, blockInsts_push shape.here, if_pos rfl] at member
  rcases List.mem_append.mp member with old | new
  · exact shape.running_push id old
  · cases List.mem_singleton.mp new
    simp [Function.isTerminator, instr?_push, goesOn]

/-- Ends the current block and goes on in one that was waiting. -/
theorem Shape.leave (shape : site.Shape waiting) (plain : instr.isSlot = false)
    (ends : instr.isTerminator = true) (split : ∀ other, waiting other ↔ other = block ∨ rest other)
    (once : ¬ rest block) : ((site.push instr name).goto block).Shape rest := by
  obtain ⟨inside, notFirst, none⟩ : block < (site.push instr name).func.blocks.size ∧ block ≠ 0 ∧
      (site.push instr name).func.blockInsts block = [] := shape.empty_push ((split block).mpr (.inl rfl))
  refine ⟨shape.arranged.addInst shape.here plain, inside, once, fun id member => ?_,
    fun other waits => shape.empty_push ((split other).mpr (.inr waits)), fun other inside apart done => ?_⟩
  · rw [goto_func, goto_block, none] at member
    contradiction
  · by_cases same : other = site.block
    · subst same
      refine ⟨site.func.blockInsts site.block, site.func.insts.size, ?_, ?_, shape.running_push⟩
      · exact (blockInsts_push shape.here _ _ _).trans (if_pos rfl)
      · simp [Function.isTerminator, instr?_push, ends]
    · refine shape.closed_push (by simpa using inside) same ?_
      intro waits
      exact ((split other).mp waits).elim apart done

theorem addSlot_func (arranged : site.func.Arranged) :
    (site.addSlot name).func = (site.func.addSlotTo 0 name).2 :=
  congrArg Prod.snd (arranged.addSlot_eq name)

theorem blockInsts_addSlot (arranged : site.func.Arranged) (name : String) (other : Nat) :
    (site.addSlot name).func.blockInsts other =
      if other = 0 then
        (site.func.blockInsts 0).takeWhile site.func.isSlot ++ site.func.insts.size :: site.func.code 0
      else
        site.func.blockInsts other := by
  rw [addSlot_func arranged, Function.blockInsts_addSlotTo _ _ _ _ arranged.nonempty, arranged.entry_split.2]

theorem instr?_addSlot (arranged : site.func.Arranged) (name : String) (id : Nat) :
    (site.addSlot name).func.instr? id =
      if id = site.func.insts.size then some .slot else site.func.instr? id := by
  rw [addSlot_func arranged, Function.instr?_addSlotTo]

theorem mem_addSlot (arranged : site.func.Arranged) (other id : Nat) :
    id ∈ (site.addSlot name).func.blockInsts other ↔
      id ∈ site.func.blockInsts other ∨ other = 0 ∧ id = site.func.insts.size := by
  rw [blockInsts_addSlot arranged]
  by_cases first : other = 0
  · subst first
    have split : id ∈ site.func.blockInsts 0 ↔
        id ∈ (site.func.blockInsts 0).takeWhile site.func.isSlot ∨ id ∈ site.func.code 0 := by
      rw [← List.mem_append, ← arranged.entry_split.1]
    simp only [if_true, List.mem_append, List.mem_cons, true_and, split]
    grind
  · simp [first]

theorem addSlot_blocks_size (arranged : site.func.Arranged) (name : String) :
    (site.addSlot name).func.blocks.size = site.func.blocks.size := by
  simp [addSlot_func arranged, Function.addSlotTo]

/-- The blocks other than the entry do not notice a new slot, and the entry ends as before. -/
theorem Shape.addSlot (shape : site.Shape waiting) (name : String) : (site.addSlot name).Shape waiting := by
  have insts := blockInsts_addSlot shape.arranged name
  have size := addSlot_blocks_size shape.arranged name
  have old : ∀ other, ∀ id ∈ site.func.blockInsts other,
      (site.addSlot name).func.instr? id = site.func.instr? id := fun other id member => by
    rw [instr?_addSlot shape.arranged, if_neg (Nat.ne_of_lt (shape.arranged.inRange other id member))]
  have slot : (site.addSlot name).func.isTerminator site.func.insts.size = false := by
    simp [Function.isTerminator, instr?_addSlot shape.arranged, Instr.isTerminator]
  refine ⟨shape.arranged.addSlot, size ▸ shape.here, shape.started, fun id member => ?_,
    fun other waits => ?_, fun other inside apart done => ?_⟩
  · rcases (mem_addSlot shape.arranged _ id).mp member with before | ⟨_, new⟩
    · rw [Function.isTerminator_congr (old _ id before)]
      exact shape.running id before
    · rw [new, slot]
  · obtain ⟨inside, notFirst, none⟩ := shape.empty other waits
    exact ⟨size ▸ inside, notFirst, by rw [insts, if_neg notFirst, none]⟩
  · have terminated := Function.terminated_congr (old other) (shape.closed other (size ▸ inside) apart done)
    rw [insts]
    split
    · next first =>
      subst first
      rw [shape.arranged.entry_split.1] at terminated
      refine terminated.insert (fun id member => ?_) slot
      have isSlot := List.all_eq_true.mp List.all_takeWhile id member
      rw [Function.isTerminator_congr (old 0 id (List.takeWhile_subset _ member))]
      exact Function.isTerminator_of_isSlot isSlot
    · exact terminated

theorem Shape.addBlock (shape : site.Shape waiting) (name : String) :
    (site.addBlock name).Shape fun other => waiting other ∨ other = site.nextBlock := by
  have insts := fun other => Function.blockInsts_addBlock site.func other name
  have size : (site.addBlock name).func.blocks.size = site.func.blocks.size + 1 := by
    simp [Site.addBlock, Function.addBlock]
  refine ⟨shape.arranged.addBlock, ?_, ?_, ?_, ?_, ?_⟩
  · exact size ▸ Nat.lt_succ_of_lt shape.here
  · rintro (waits | new)
    · exact shape.started waits
    · exact Nat.ne_of_lt shape.here new
  · simp only [Site.addBlock, insts]
    exact shape.running
  · rintro other (waits | new)
    · obtain ⟨inside, notFirst, none⟩ := shape.empty other waits
      exact ⟨size ▸ Nat.lt_succ_of_lt inside, notFirst, (insts other).trans none⟩
    · subst new
      refine ⟨size ▸ Nat.lt_succ_self _, Nat.ne_of_gt shape.arranged.nonempty, ?_⟩
      exact (insts _).trans (Function.blockInsts_eq_nil _ _ (Nat.le_refl _))
  · intro other inside apart done
    rw [size] at inside
    simp only [Site.addBlock, insts]
    exact shape.closed other (Nat.lt_of_le_of_ne (Nat.le_of_lt_succ inside) fun new => done (.inr new)) apart
      fun waits => done (.inl waits)

theorem Shape.moveToEnd (shape : site.Shape waiting) (inside : block < site.func.blocks.size)
    (notFirst : block ≠ 0) : (site.moveToEnd block).Shape waiting :=
  ⟨shape.arranged.moveToEnd inside notFirst, shape.here, shape.started, shape.running, shape.empty,
    shape.closed⟩

end

end Site

end Kaleidoscope.Flow
