import Kaleidoscope.Proofs.Flow.Growth

/-!
Which blocks dominate which, written down while a function is built. The record is right from the start: a new
block is dominated by what dominates the block it is made for, and later code never disproves an entry.
-/

namespace Kaleidoscope.Flow

namespace Function

/-- What the record `said` says to be computed before `id` in `block`. -/
def SaidBefore (f : Function) (said : Nat → List Nat) (block id source : Nat) : Prop :=
  [source, id].Sublist (f.blockInsts block) ∨
    ∃ above ∈ said block, above ≠ block ∧ source ∈ f.blockInsts above

/-- The record agrees with every branch and suffices for every operand. -/
structure Certified (f : Function) (said : Nat → List Nat) : Prop where
  entry : ∀ above ∈ said 0, above = 0
  self : ∀ block < f.blocks.size, block ∈ said block ∧ 0 ∈ said block
  edges : ∀ block, ∀ next ∈ f.successors block,
    next < f.blocks.size ∧ next ≠ 0 ∧ ∀ above ∈ said next, above = next ∨ above ∈ said block
  operands : ∀ block, ∀ id ∈ f.blockInsts block, ∀ input ∈ f.inputsOf id,
    f.Fits (f.SaidBefore said block id) input

variable {f g : Function} {said : Nat → List Nat}

private theorem Grows.saidBefore (grows : f.Grows g) {block id source : Nat}
    (before : f.SaidBefore said block id source) : g.SaidBefore said block id source := by
  rcases before with inside | ⟨above, member, apart, found⟩
  · exact .inl (inside.trans (grows.kept block))
  · exact .inr ⟨above, member, apart, (grows.kept above).subset found⟩

theorem Grows.inputsOf (grows : f.Grows g) {id : Nat} (inside : id < f.insts.size) :
    g.inputsOf id = f.inputsOf id := by
  obtain ⟨inst, found⟩ : ∃ inst, f.insts[id]? = some inst := ⟨_, Array.getElem?_eq_getElem inside⟩
  have old : f.instr? id = some inst.instr := by simp [instr?, inst?, found]
  simp only [Function.inputsOf, old, grows.instrs id inst.instr old]

theorem Grows.targetsOf (grows : f.Grows g) {id : Nat} (inside : id < f.insts.size) :
    g.targetsOf id = f.targetsOf id := by
  obtain ⟨inst, found⟩ : ∃ inst, f.insts[id]? = some inst := ⟨_, Array.getElem?_eq_getElem inside⟩
  have old : f.instr? id = some inst.instr := by simp [instr?, inst?, found]
  simp only [Function.targetsOf, old, grows.instrs id inst.instr old]

theorem mem_successors {block next : Nat} :
    next ∈ f.successors block ↔ ∃ id ∈ f.blockInsts block, next ∈ f.targetsOf id := by
  simp [successors, List.mem_flatMap]

end Function

namespace Site

/-- An operand of this kind that an instruction at the insertion point can use. -/
def InHand (site : Site) (said : Nat → List Nat) : Operand × Kind → Prop :=
  site.func.Fits fun source => ∃ above ∈ said site.block, source ∈ site.func.blockInsts above

variable {site later : Site} {said : Nat → List Nat} {waiting : Nat → Prop} {instr : Instr} {name : String}

theorem InHand.mono {more : Nat → List Nat} {input : Operand × Kind} (inHand : site.InHand said input)
    (grows : site.func.Grows later.func) (kept : ∀ above ∈ said site.block, above ∈ more later.block) :
    later.InHand more input :=
  Function.Fits.mono inHand grows.params grows.kindOf? fun _ ⟨above, member, found⟩ =>
    ⟨above, kept above member, (grows.kept above).subset found⟩

/-- The result of an instruction is at hand as soon as it has been added. -/
theorem Shape.inHand_push (shape : site.Shape waiting) (certified : site.func.Certified said) {kind : Kind}
    (yields : instr.kind? = some kind) : (site.push instr name).InHand said (site.next, kind) := by
  refine ⟨?_, site.block, (certified.self _ shape.here).1, ?_⟩
  · simp [Function.kindOf?, instr?_push, yields]
  · simp [blockInsts_push shape.here]

theorem Shape.certified_push (shape : site.Shape waiting) (certified : site.func.Certified said)
    (plain : instr.isSlot = false) (inputs : ∀ input ∈ instr.inputs, site.InHand said input)
    (targets : ∀ next ∈ instr.targets, next < site.func.blocks.size ∧ next ≠ 0 ∧
      ∀ above ∈ said next, above = next ∨ above ∈ said site.block) :
    (site.push instr name).func.Certified said := by
  have grows := shape.grows_push plain name
  have member : ∀ block, ∀ id ∈ (site.push instr name).func.blockInsts block,
      id ∈ site.func.blockInsts block ∨ id = site.func.insts.size ∧ block = site.block := by
    intro block id member
    rw [blockInsts_push shape.here] at member
    split at member
    · next same =>
      subst same
      simpa using member
    · exact .inl member
  refine ⟨certified.entry, by simpa using certified.self, fun block next edge => ?_,
    fun block id inside input asked => ?_⟩
  · obtain ⟨id, inside, target⟩ := Function.mem_successors.mp edge
    rw [push_blocks_size]
    rcases member block id inside with old | ⟨new, here⟩
    · rw [grows.targetsOf (shape.arranged.inRange block id old)] at target
      exact certified.edges block next (Function.mem_successors.mpr ⟨id, old, target⟩)
    · subst new here
      exact targets next (by simpa [Function.targetsOf, instr?_push] using target)
  · rcases member block id inside with old | ⟨new, here⟩
    · rw [grows.inputsOf (shape.arranged.inRange block id old)] at asked
      exact (certified.operands block id old input asked).mono grows.params grows.kindOf?
        fun _ => grows.saidBefore
    · subst new here
      have inHand := inputs input (by simpa [Function.inputsOf, instr?_push] using asked)
      refine Function.Fits.mono inHand grows.params grows.kindOf? fun source ⟨above, member, found⟩ => ?_
      by_cases same : above = site.block
      · subst same
        left
        rw [blockInsts_push shape.here, if_pos rfl]
        exact (List.singleton_sublist.mpr found).append_right [site.func.insts.size]
      · exact .inr ⟨above, member, same, (grows.kept above).subset found⟩

theorem Shape.certified_addSlot (shape : site.Shape waiting) (certified : site.func.Certified said) :
    (site.addSlot name).func.Certified said := by
  have grows := shape.grows_addSlot name
  have slot : (site.addSlot name).func.instr? site.func.insts.size = some .slot := by
    rw [instr?_addSlot shape.arranged, if_pos rfl]
  refine ⟨certified.entry, ?_, fun block next edge => ?_, fun block id inside input asked => ?_⟩
  · rw [addSlot_blocks_size shape.arranged]
    exact certified.self
  · obtain ⟨id, inside, target⟩ := Function.mem_successors.mp edge
    rw [addSlot_blocks_size shape.arranged]
    rcases (mem_addSlot shape.arranged block id).mp inside with old | ⟨_, new⟩
    · rw [grows.targetsOf (shape.arranged.inRange block id old)] at target
      exact certified.edges block next (Function.mem_successors.mpr ⟨id, old, target⟩)
    · simp [Function.targetsOf, new, slot, Instr.targets] at target
  · rcases (mem_addSlot shape.arranged block id).mp inside with old | ⟨_, new⟩
    · rw [grows.inputsOf (shape.arranged.inRange block id old)] at asked
      exact (certified.operands block id old input asked).mono grows.params grows.kindOf?
        fun _ => grows.saidBefore
    · simp [Function.inputsOf, new, slot, Instr.inputs] at asked

/-- A slot is at hand everywhere, since the entry dominates every block. -/
theorem Shape.inHand_addSlot (shape : site.Shape waiting) (certified : site.func.Certified said) :
    (site.addSlot name).InHand said (site.next, .place) := by
  refine ⟨?_, 0, (certified.self _ shape.here).2, ?_⟩
  · simp [Function.kindOf?, instr?_addSlot shape.arranged, Instr.kind?]
  · exact (mem_addSlot shape.arranged 0 _).mpr (.inr ⟨rfl, rfl⟩)

/-- The record with a new block below `above`. -/
def saying (said : Nat → List Nat) (block above : Nat) : Nat → List Nat :=
  fun other => if other = block then block :: said above else said other

theorem saying_old {block above other : Nat} (old : other ≠ block) :
    saying said block above other = said other :=
  if_neg old

theorem saying_new (said : Nat → List Nat) (block above : Nat) :
    saying said block above block = block :: said above :=
  if_pos rfl

theorem Shape.certified_addBlock (shape : site.Shape waiting) (certified : site.func.Certified said)
    {above : Nat} (inside : above < site.func.blocks.size) :
    (site.addBlock name).func.Certified (saying said site.nextBlock above) := by
  have insts := fun other => Function.blockInsts_addBlock site.func other name
  have old : ∀ block < site.func.blocks.size, saying said site.nextBlock above block = said block :=
    fun block bound => saying_old (Nat.ne_of_lt bound)
  have bound : ∀ block, ∀ id ∈ site.func.blockInsts block, block < site.func.blocks.size := by
    intro block id member
    rcases Nat.lt_or_ge block site.func.blocks.size with inside | outside
    · exact inside
    · rw [Function.blockInsts_eq_nil _ _ outside] at member
      contradiction
  refine ⟨?_, fun block inside' => ?_, fun block next edge => ?_, fun block id member input asked => ?_⟩
  · rw [old 0 shape.arranged.nonempty]
    exact certified.entry
  · rw [addBlock_blocks_size] at inside'
    rcases Nat.lt_or_eq_of_le (Nat.le_of_lt_succ inside') with before | new
    · rw [old block before]
      exact certified.self block before
    · subst new
      rw [show site.func.blocks.size = site.nextBlock from rfl, saying_new]
      exact ⟨List.mem_cons_self, List.mem_cons_of_mem _ (certified.self above inside).2⟩
  · obtain ⟨id, member, target⟩ := Function.mem_successors.mp edge
    rw [Site.addBlock, insts] at member
    obtain ⟨lower, notFirst, agrees⟩ :=
      certified.edges block next (Function.mem_successors.mpr ⟨id, member, target⟩)
    rw [old block (bound block id member), old next lower, addBlock_blocks_size]
    exact ⟨Nat.lt_succ_of_lt lower, notFirst, agrees⟩
  · rw [Site.addBlock, insts] at member
    refine (certified.operands block id member input asked).mono rfl (fun _ _ found => found) ?_
    simp only [Function.SaidBefore, Site.addBlock, insts, old block (bound block id member)]
    exact fun _ before => before

theorem certified_moveToEnd (certified : site.func.Certified said) (block : Nat) :
    (site.moveToEnd block).func.Certified said :=
  ⟨certified.entry, certified.self, certified.edges, certified.operands⟩

end Site

namespace Function

variable {f : Function} {said : Nat → List Nat}

private theorem Certified.dominators (certified : f.Certified said) (entry : f.entry? = some 0) :
    f.Dominators said := by
  refine ⟨fun block first above member => ?_, fun block next edge => (certified.edges block next edge).2.2⟩
  rw [entry] at first
  cases first
  exact certified.entry above member

private theorem split_of_pair_sublist {source id : Nat} {insts : List Nat} (inside : [source, id].Sublist insts) :
    ∃ done rest, insts = done ++ id :: rest ∧ source ∈ done := by
  obtain ⟨front, back, same, first, second⟩ := List.cons_sublist_iff.mp inside
  obtain ⟨middle, rest, split⟩ := List.append_of_mem (List.singleton_sublist.mp second)
  exact ⟨front ++ middle, rest, by simp [same, split], List.mem_append_left _ first⟩

theorem Arranged.linkedOnce (arranged : f.Arranged) : f.liveInsts.Nodup := by
  have unique : f.layout.Nodup := arranged.layout.nodup_iff.mpr List.nodup_range
  refine List.pairwise_flatMap.mpr ⟨fun block _ => arranged.once block, ?_⟩
  refine unique.imp fun apart id member other member' same => ?_
  exact apart (arranged.apart id _ _ member (same ▸ member'))

theorem Arranged.mem_layout (arranged : f.Arranged) (block : Nat) :
    block ∈ f.layout ↔ block < f.blocks.size := by
  rw [arranged.layout.mem_iff, List.mem_range]

private theorem Arranged.mem_layout_of_member (arranged : f.Arranged) {block id : Nat}
    (member : id ∈ f.blockInsts block) : block ∈ f.layout := by
  rw [arranged.mem_layout]
  rcases Nat.lt_or_ge block f.blocks.size with inside | outside
  · exact inside
  · rw [blockInsts_eq_nil _ _ outside] at member
    contradiction

theorem SaidBefore.live (arranged : f.Arranged) {block id source : Nat} (here : block ∈ f.layout)
    (before : f.SaidBefore said block id source) : source ∈ f.liveInsts := by
  rcases before with inside | ⟨above, _, _, found⟩
  · exact List.mem_flatMap.mpr ⟨block, here, inside.subset List.mem_cons_self⟩
  · exact List.mem_flatMap.mpr ⟨above, arranged.mem_layout_of_member found, found⟩

/-- What the record says to be computed before an instruction dominates it. -/
theorem Certified.precedes (certified : f.Certified said) (arranged : f.Arranged) {block id source : Nat}
    (member : id ∈ f.blockInsts block) (before : f.SaidBefore said block id source) :
    f.Precedes source block id := by
  rcases before with inside | ⟨above, recorded, apart, found⟩
  · obtain ⟨done, rest, split, inDone⟩ := split_of_pair_sublist inside
    exact ⟨done, rest, split, fun _ _ => .inl inDone⟩
  · obtain ⟨done, rest, split⟩ := List.append_of_mem member
    exact ⟨done, rest, split, (certified.dominators arranged.entry).passed recorded apart found⟩

/-- A function whose blocks are all finished and whose record holds is well formed. -/
theorem Arranged.wellFormed (arranged : f.Arranged) (certified : f.Certified said)
    (terminated : ∀ block < f.blocks.size, f.Terminated (f.blockInsts block)) : f.WellFormed := by
  have inLayout : ∀ block, block ∈ f.layout ↔ block < f.blocks.size := fun block => by
    rw [arranged.layout.mem_iff, List.mem_range]
  refine ⟨?_, arranged.layout, arranged.linkedOnce, ?_, ?_, ?_, ?_, ?_⟩
  · obtain ⟨block, found, name⟩ := Option.map_eq_some_iff.mp arranged.entryName
    exact ⟨0, block, arranged.entry, found, name⟩
  · intro id live
    obtain ⟨block, _, member⟩ := List.mem_flatMap.mp live
    exact arranged.inRange block id member
  · exact fun block member => terminated block ((inLayout block).mp member)
  · intro block _ next edge
    obtain ⟨inside, notFirst, _⟩ := certified.edges block next edge
    refine ⟨(inLayout next).mpr inside, fun first => ?_⟩
    rw [arranged.entry] at first
    exact notFirst (Option.some.inj first).symm
  · intro block _ id member slot
    by_cases first : block = 0
    · rw [first, arranged.entry]
    · rw [arranged.slots block first id member] at slot
      contradiction
  · intro block here id member input asked
    refine (certified.operands block id member input asked).mono rfl (fun _ _ found => found) ?_
    intro source before
    exact ⟨before.live arranged here, certified.precedes arranged member before⟩

end Function

namespace Site

variable {site : Site} {said : Nat → List Nat} {value : Operand}

/-- A function is complete once nothing waits and the current block returns. -/
theorem Shape.finish (shape : site.Shape fun _ => False) (certified : site.func.Certified said)
    (inHand : site.InHand said (value, .real)) : (site.push (.ret value) "").func.WellFormed := by
  have arranged : (site.push (.ret value) "").func.Arranged := shape.arranged.addInst shape.here rfl
  refine arranged.wellFormed (shape.certified_push certified rfl ?_ ?_) fun block inside => ?_
  · intro input member
    cases List.mem_singleton.mp member
    exact inHand
  · intro next target
    contradiction
  · by_cases here : block = site.block
    · subst here
      refine ⟨site.func.blockInsts site.block, site.func.insts.size, ?_, ?_, shape.running_push⟩
      · exact (blockInsts_push shape.here _ _ _).trans (if_pos rfl)
      · simp [Function.isTerminator, instr?_push, Instr.isTerminator]
    · exact shape.closed_push (by simpa using inside) here not_false

end Site

end Kaleidoscope.Flow
