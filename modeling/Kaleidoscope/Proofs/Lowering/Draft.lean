import Kaleidoscope.Proofs.Flow.Certificate
import Kaleidoscope.Proofs.Lowering.Code

/-!
Code keeps the function it is added to in order: blocks keep their shape, and the record of dominating blocks
stays right. The values of expressions can be used where their code ends.
-/

namespace Kaleidoscope

open Kaleidoscope.Flow

namespace Flow.Site

/-- A function under construction with a record of dominating blocks. -/
structure Draft (site : Site) (waiting : Nat → Prop) (said : Nat → List Nat) : Prop where
  shape : site.Shape waiting
  certified : site.func.Certified said

/-- Building went on from `s` to `t`: nothing was lost, and what was at hand still is. -/
structure Onward (s : Site) (said : Nat → List Nat) (t : Site) (more : Nat → List Nat) : Prop where
  grows : s.func.Grows t.func
  record : ∀ block < s.func.blocks.size, more block = said block
  above : ∀ above ∈ said s.block, above ∈ more t.block

variable {s t u : Site} {waiting rest : Nat → Prop} {said more most : Nat → List Nat}

theorem Onward.refl (s : Site) (said : Nat → List Nat) : s.Onward said s said :=
  ⟨.refl _, fun _ _ => rfl, fun _ => id⟩

theorem Onward.trans (first : s.Onward said t more) (second : t.Onward more u most) : s.Onward said u most :=
  ⟨first.grows.trans second.grows,
    fun block inside => (second.record block (Nat.lt_of_lt_of_le inside first.grows.blocks)).trans
      (first.record block inside),
    fun above member => second.above above (first.above above member)⟩

theorem Onward.inHand (onward : s.Onward said t more) {input : Operand × Kind} (inHand : s.InHand said input) :
    t.InHand more input :=
  inHand.mono onward.grows onward.above

/-- Going on in a block that was made earlier, below the block of `s`. -/
theorem Onward.resume (onward : s.Onward said t more) (grows : t.func.Grows u.func)
    (below : more u.block = u.block :: said s.block) : s.Onward said u more := by
  refine ⟨onward.grows.trans grows, onward.record, fun above member => ?_⟩
  rw [below]
  exact List.mem_cons_of_mem _ member

theorem Draft.push (draft : s.Draft waiting said) (instr : Instr) (plain : instr.isSlot = false)
    (goesOn : instr.isTerminator = false) (inputs : ∀ input ∈ instr.inputs, s.InHand said input)
    (name : String) : (s.push instr name).Draft waiting said := by
  refine ⟨draft.shape.push plain goesOn, draft.shape.certified_push draft.certified plain inputs ?_⟩
  have none : instr.targets = [] := by cases instr <;> first | rfl | contradiction
  simp [none]

private theorem Draft.onward_push (draft : s.Draft waiting said) (instr : Instr) (plain : instr.isSlot = false)
    (name : String) :
    s.Onward said (s.push instr name) said :=
  ⟨draft.shape.grows_push plain name, fun _ _ => rfl, fun _ => id⟩

theorem Draft.addSlot (draft : s.Draft waiting said) (name : String) : (s.addSlot name).Draft waiting said :=
  ⟨draft.shape.addSlot name, draft.shape.certified_addSlot draft.certified⟩

private theorem Draft.onward_addSlot (draft : s.Draft waiting said) (name : String) :
    s.Onward said (s.addSlot name) said :=
  ⟨draft.shape.grows_addSlot name, fun _ _ => rfl, fun _ => id⟩

/-- A new block is reached through the current one. -/
theorem Draft.addBlock (draft : s.Draft waiting said) (name : String) :
    (s.addBlock name).Draft (fun block => waiting block ∨ block = s.nextBlock)
      (saying said s.nextBlock s.block) :=
  ⟨draft.shape.addBlock name, draft.shape.certified_addBlock draft.certified draft.shape.here⟩

private theorem Draft.onward_addBlock (draft : s.Draft waiting said) (name : String) :
    s.Onward said (s.addBlock name) (saying said s.nextBlock s.block) := by
  have old : ∀ block < s.func.blocks.size, saying said s.nextBlock s.block block = said block :=
    fun block inside => saying_old (Nat.ne_of_lt inside)
  refine ⟨grows_addBlock s name, old, fun above member => ?_⟩
  rw [addBlock_block, old s.block draft.shape.here]
  exact member

/-- Ends the current block and goes on in one that was waiting. -/
theorem Draft.leave (draft : s.Draft waiting said) {block : Nat} (instr : Instr) (plain : instr.isSlot = false)
    (ends : instr.isTerminator = true) (split : ∀ other, waiting other ↔ other = block ∨ rest other)
    (once : ¬ rest block) (inputs : ∀ input ∈ instr.inputs, s.InHand said input)
    (targets : ∀ next ∈ instr.targets, next < s.func.blocks.size ∧ next ≠ 0 ∧
      ∀ above ∈ said next, above = next ∨ above ∈ said s.block) :
    ((s.push instr "").goto block).Draft rest said :=
  ⟨draft.shape.leave plain ends split once, draft.shape.certified_push draft.certified plain inputs targets⟩

theorem Draft.moveToEnd (draft : s.Draft waiting said) {block : Nat} (inside : block < s.func.blocks.size)
    (notFirst : block ≠ 0) : (s.moveToEnd block).Draft waiting said :=
  ⟨draft.shape.moveToEnd inside notFirst, certified_moveToEnd draft.certified block⟩

theorem Draft.inHand_push (draft : s.Draft waiting said) (instr : Instr) (name : String) {kind : Kind}
    (yields : instr.kind? = some kind) : (s.push instr name).InHand said (s.next, kind) :=
  draft.shape.inHand_push draft.certified yields

theorem Draft.inHand_addSlot (draft : s.Draft waiting said) (name : String) :
    (s.addSlot name).InHand said (s.next, .place) :=
  draft.shape.inHand_addSlot draft.certified

private theorem inHand_const (s : Site) (said : Nat → List Nat) (value : Double) :
    s.InHand said (.const value, .real) :=
  rfl

theorem Draft.store (draft : s.Draft waiting said) {value place : Operand}
    (inHand : s.InHand said (value, .real)) (slot : s.InHand said (place, .place)) :
    (s.push (.store value place) "").Draft waiting said ∧
      s.Onward said (s.push (.store value place) "") said :=
  ⟨draft.push (.store value place) rfl rfl
      (List.forall_mem_cons.mpr ⟨inHand, List.forall_mem_singleton.mpr slot⟩) "",
    draft.onward_push _ rfl ""⟩

theorem Draft.newVariable (draft : s.Draft waiting said) (name : String) {value : Operand}
    (inHand : s.InHand said (value, .real)) :
    (s.newVariable name value).Draft waiting said ∧ s.Onward said (s.newVariable name value) said ∧
      (s.newVariable name value).InHand said (s.next, .place) := by
  have onward := draft.onward_addSlot name
  have slot := draft.inHand_addSlot name
  obtain ⟨stored, stores⟩ := (draft.addSlot name).store (onward.inHand inHand) slot
  exact ⟨stored, onward.trans stores, stores.inHand slot⟩

/-- A test leaves a flag at hand. -/
theorem Draft.test (draft : s.Draft waiting said) (name : String) {value : Operand}
    (inHand : s.InHand said (value, .real)) :
    (s.test value name).Draft waiting said ∧ s.Onward said (s.test value name) said ∧
      (s.test value name).InHand said (s.next, .flag) := by
  refine ⟨draft.push _ rfl rfl ?_ name, draft.onward_push _ rfl name, draft.inHand_push _ name rfl⟩
  exact List.forall_mem_cons.mpr ⟨inHand, List.forall_mem_singleton.mpr (inHand_const _ _ _)⟩

/-- A new block waits below the current one. -/
theorem Draft.not_waiting (draft : s.Draft waiting said) {block : Nat} (outside : s.nextBlock ≤ block) :
    ¬ waiting block :=
  fun waits => Nat.not_lt.mpr outside (draft.shape.empty block waits).1

/-- Going three ways: two branches now and a block where they will meet. -/
theorem Draft.split (draft : s.Draft waiting said) {flag : Operand} (inHand : s.InHand said (flag, .flag)) :
    ∃ more,
      (((((s.addBlock "then").addBlock "else").addBlock "ifcont").push
        (.branch flag s.nextBlock (s.nextBlock + 1)) "").goto s.nextBlock).Draft
        (fun block => (waiting block ∨ block = s.nextBlock + 1) ∨ block = s.nextBlock + 2) more ∧
      s.Onward said (((((s.addBlock "then").addBlock "else").addBlock "ifcont").push
        (.branch flag s.nextBlock (s.nextBlock + 1)) "").goto s.nextBlock) more ∧
      more (s.nextBlock + 1) = (s.nextBlock + 1) :: said s.block ∧
      more (s.nextBlock + 2) = (s.nextBlock + 2) :: said s.block := by
  have blocks := ((draft.addBlock "then").addBlock "else").addBlock "ifcont"
  have onward := ((draft.onward_addBlock "then").trans ((draft.addBlock "then").onward_addBlock "else")).trans
    (((draft.addBlock "then").addBlock "else").onward_addBlock "ifcont")
  simp only [addBlock_nextBlock, addBlock_block] at blocks onward
  generalize said' : saying _ _ _ = more at blocks onward
  have here : s.block < s.nextBlock := draft.shape.here
  have first : more s.nextBlock = s.nextBlock :: said s.block := by
    subst said'
    grind [saying]
  have second : more (s.nextBlock + 1) = (s.nextBlock + 1) :: said s.block := by
    subst said'
    grind [saying]
  have third : more (s.nextBlock + 2) = (s.nextBlock + 2) :: said s.block := by
    subst said'
    grind [saying]
  have same : more s.block = said s.block := onward.record s.block here
  have jumps := blocks.onward_push (.branch flag s.nextBlock (s.nextBlock + 1)) rfl ""
  refine ⟨more, blocks.leave _ rfl rfl (fun other => by grind) ?_ ?_ ?_, ?_, second, third⟩
  · have fresh := draft.not_waiting (Nat.le_refl _)
    grind
  · exact List.forall_mem_singleton.mpr (onward.inHand inHand)
  · have positive : 0 < s.nextBlock := draft.shape.arranged.nonempty
    simp only [Instr.targets, List.mem_cons, List.not_mem_nil, or_false, forall_eq_or_imp, forall_eq,
      addBlock_block, addBlock_blocks_size, same, first, second, List.mem_cons]
    grind [Site.nextBlock]
  · exact onward.resume jumps.grows first

/-- Before a condition forks, the slot of its result is at hand; the blocks it makes all stand below that place. -/
theorem Draft.fork (draft : s.Draft waiting said) {value : Operand} (inHand : s.InHand said (value, .real)) :
    ∃ base more, s.Onward said base said ∧ base.InHand said (s.forkSlot value, .place) ∧
      (∀ block, s.forkBlock value ≤ block → ¬ waiting block) ∧
      (s.fork value).Draft
        (fun block => (waiting block ∨ block = s.forkBlock value + 1) ∨ block = s.forkBlock value + 2) more ∧
      base.Onward said (s.fork value) more ∧
      more (s.forkBlock value + 1) = (s.forkBlock value + 1) :: said base.block ∧
      more (s.forkBlock value + 2) = (s.forkBlock value + 2) :: said base.block := by
  obtain ⟨tested, tests, flag⟩ := draft.test "ifcond" inHand
  have adds := tested.onward_addSlot "iftmp"
  obtain ⟨more, forked, forks, no, after⟩ := (tested.addSlot "iftmp").split (adds.inHand flag)
  exact ⟨_, more, tests.trans adds, tested.inHand_addSlot "iftmp", fun _ => (tested.addSlot "iftmp").not_waiting,
    forked, forks, no, after⟩

theorem Shape.forkBlocks (shape : s.Shape waiting) (value : Operand) :
    (s.forkBlocks value).Shape fun block =>
      ((waiting block ∨ block = s.forkBlock value) ∨ block = s.forkBlock value + 1) ∨
        block = s.forkBlock value + 2 := by
  have tested : (s.test value "ifcond").Shape waiting := shape.push rfl rfl
  have blocks := (((tested.addSlot "iftmp").addBlock "then").addBlock "else").addBlock "ifcont"
  simp only [addBlock_nextBlock] at blocks
  exact blocks

theorem Shape.grows_forkBlocks (shape : s.Shape waiting) (value : Operand) :
    (s.test value "ifcond").func.Grows (s.forkBlocks value).func := by
  have tested : (s.test value "ifcond").Shape waiting := shape.push rfl rfl
  exact ((((tested.grows_addSlot "iftmp").trans (grows_addBlock _ "then")).trans
    (grows_addBlock _ "else")).trans (grows_addBlock _ "ifcont"))

/-- The blocks that a condition forks to are empty at first. -/
theorem Shape.fork_empty (shape : s.Shape waiting) (value : Operand) :
    (s.fork value).func.blockInsts (s.forkBlock value) = [] := by
  obtain ⟨_, _, empty⟩ : _ ∧ _ ∧ (s.fork value).func.blockInsts (s.forkBlock value) = [] :=
    (shape.forkBlocks value).empty_push (.inl (.inl (.inr rfl)))
  exact empty

private theorem Shape.endBranch_empty (shape : s.Shape waiting) {value result : Operand} {after next : Nat}
    (waits : waiting next) : (s.endBranch value result after next).func.blockInsts next = [] := by
  have stored : (s.push (.store value result) "").Shape waiting := shape.push rfl rfl
  obtain ⟨_, _, empty⟩ : _ ∧ _ ∧ ((s.push (.store value result) "").push (.jump after) "").func.blockInsts next = [] :=
    stored.empty_push waits
  exact empty

theorem Shape.enterLoop_empty (shape : s.Shape waiting) (first slot : Operand) :
    (s.enterLoop first slot).func.blockInsts s.nextBlock = [] := by
  have stored : (s.push (.store first slot) "").Shape waiting := shape.push rfl rfl
  have blocks := stored.addBlock "loop"
  rw [push_nextBlock] at blocks
  obtain ⟨_, _, empty⟩ : _ ∧ _ ∧ (s.enterLoop first slot).func.blockInsts s.nextBlock = [] :=
    blocks.empty_push (.inr rfl)
  exact empty

theorem Shape.leaveLoop_empty (shape : s.Shape waiting) (value : Operand) (top : Nat) :
    (s.leaveLoop value top).func.blockInsts s.nextBlock = [] := by
  have tested : (s.test value "loopcond").Shape waiting := shape.push rfl rfl
  have blocks := tested.addBlock "afterloop"
  rw [test_nextBlock] at blocks
  obtain ⟨_, _, empty⟩ : _ ∧ _ ∧ (s.leaveLoop value top).func.blockInsts s.nextBlock = [] :=
    blocks.empty_push (.inr rfl)
  exact empty

/-- A branch can end and leave its value if the block where it meets the other is recorded above it. -/
theorem Draft.endBranch (draft : s.Draft waiting said) (rest : Nat → Prop) (next : Nat)
    {value result : Operand} {after : Nat}
    (inHand : s.InHand said (value, .real)) (slot : s.InHand said (result, .place))
    (split : ∀ other, waiting other ↔ other = next ∨ rest other) (once : ¬ rest next)
    (meets : waiting after) (above : ∀ above ∈ said after, above = after ∨ above ∈ said s.block) :
    (s.endBranch value result after next).Draft rest said ∧
      s.func.Grows (s.endBranch value result after next).func := by
  obtain ⟨stored, stores⟩ := draft.store inHand slot
  have jumps := stored.onward_push (.jump after) rfl ""
  obtain ⟨inside, notFirst, _⟩ := stored.shape.empty after meets
  obtain ⟨inside', notFirst', _⟩ := stored.shape.empty next ((split next).mpr (.inl rfl))
  have left : (((s.push (.store value result) "").push (.jump after) "").goto next).Draft rest said := by
    refine stored.leave _ rfl rfl split once (List.forall_mem_nil _) ?_
    exact List.forall_mem_singleton.mpr ⟨inside, notFirst, above⟩
  refine ⟨left.moveToEnd (by simpa using inside') notFirst', ?_⟩
  exact (stores.grows.trans jumps.grows).trans (grows_moveToEnd _ next)

/-- The top of a loop is reached from the block before the loop. -/
theorem Draft.enterLoop (draft : s.Draft waiting said) {first slot : Operand}
    (inHand : s.InHand said (first, .real)) (place : s.InHand said (slot, .place)) :
    ∃ more, (s.enterLoop first slot).Draft waiting more ∧ s.Onward said (s.enterLoop first slot) more := by
  obtain ⟨stored, stores⟩ := draft.store inHand place
  have blocks := stored.addBlock "loop"
  have onward := stores.trans (stored.onward_addBlock "loop")
  simp only [push_nextBlock, push_block] at blocks onward
  have here : s.block < s.nextBlock := draft.shape.here
  have top : saying said s.nextBlock s.block s.nextBlock = s.nextBlock :: said s.block := saying_new _ _ _
  have same : saying said s.nextBlock s.block s.block = said s.block := onward.record s.block here
  have jumps := blocks.onward_push (.jump s.nextBlock) rfl ""
  refine ⟨_, blocks.leave _ rfl rfl (fun other => or_comm) (draft.not_waiting (Nat.le_refl _))
    (List.forall_mem_nil _) (List.forall_mem_singleton.mpr ⟨?_, ?_, ?_⟩), ?_⟩
  · simp [Site.nextBlock]
  · exact Nat.ne_of_gt draft.shape.arranged.nonempty
  · rw [top, addBlock_block, push_block, same]
    exact fun above member => List.mem_cons.mp member
  · exact onward.resume jumps.grows top

theorem Draft.advance (draft : s.Draft waiting said) (name : String) {slot stride : Operand}
    (place : s.InHand said (slot, .place)) (inHand : s.InHand said (stride, .real)) :
    (s.advance name slot stride).Draft waiting said ∧ s.Onward said (s.advance name slot stride) said := by
  have loads := draft.onward_push (.load slot) rfl name
  have loaded : (s.push (.load slot) name).Draft waiting said :=
    draft.push (.load slot) rfl rfl (List.forall_mem_singleton.mpr place) name
  have adds := loaded.onward_push (.arith .add s.next stride) rfl "nextvar"
  have added : ((s.push (.load slot) name).push (.arith .add s.next stride) "nextvar").Draft waiting said := by
    refine loaded.push _ rfl rfl (List.forall_mem_cons.mpr ⟨?_, List.forall_mem_singleton.mpr ?_⟩) "nextvar"
    · exact draft.inHand_push _ name rfl
    · exact loads.inHand inHand
  obtain ⟨stored, stores⟩ :=
    added.store (loaded.inHand_push _ "nextvar" rfl) (adds.inHand (loads.inHand place))
  exact ⟨stored, (loads.trans adds).trans stores⟩

/-- A loop can be closed if its top is recorded above the end of its body. -/
theorem Draft.leaveLoop (draft : s.Draft waiting said) {value : Operand} {top : Nat}
    (inHand : s.InHand said (value, .real)) (inside : top < s.func.blocks.size) (notFirst : top ≠ 0)
    (above : ∀ above ∈ said top, above = top ∨ above ∈ said s.block) :
    ∃ more, (s.leaveLoop value top).Draft waiting more ∧ s.Onward said (s.leaveLoop value top) more := by
  obtain ⟨tested, tests, flag⟩ := draft.test "loopcond" inHand
  have blocks := tested.addBlock "afterloop"
  have onward := tests.trans (tested.onward_addBlock "afterloop")
  simp only [Site.test, push_nextBlock, push_block] at blocks onward
  have here : s.block < s.nextBlock := draft.shape.here
  have after : saying said s.nextBlock s.block s.nextBlock = s.nextBlock :: said s.block := saying_new _ _ _
  have same : saying said s.nextBlock s.block s.block = said s.block := onward.record s.block here
  have old : saying said s.nextBlock s.block top = said top := onward.record top inside
  have jumps := blocks.onward_push (.branch s.next top s.nextBlock) rfl ""
  have left := blocks.leave (.branch s.next top s.nextBlock) rfl rfl (fun other => or_comm)
    (draft.not_waiting (Nat.le_refl _)) (List.forall_mem_singleton.mpr ?_)
    (List.forall_mem_cons.mpr ⟨⟨?_, notFirst, ?_⟩, List.forall_mem_singleton.mpr ⟨?_, ?_, ?_⟩⟩)
  · exact ⟨_, left, onward.resume jumps.grows after⟩
  · have added := tested.onward_addBlock "afterloop"
    simp only [Site.test, push_nextBlock, push_block] at added
    exact added.inHand flag
  · simp
    omega
  · rw [old, addBlock_block, push_block, same]
    exact above
  · simp [Site.nextBlock]
  · exact Nat.ne_of_gt draft.shape.arranged.nonempty
  · rw [after, addBlock_block, push_block, same]
    exact fun above member => List.mem_cons.mp member

end Flow.Site

open Flow.Site

variable {m : Module} {scope : Scope} {exprs : List Expr} {s t : Site} {values : List Operand}
  {waiting : Nat → Prop} {said : Nat → List Nat}

theorem Scope.mem_of_lookup {name : String} {slot : Operand} (bound : scope.lookup name = some slot) :
    (name, slot) ∈ scope := by
  obtain ⟨front, back, same, _⟩ := List.lookup_eq_some_iff.mp bound
  simp [same]

theorem Flow.Site.Draft.arith (draft : s.Draft waiting said) (op : Arith) {l r : Operand} (name : String)
    (left : s.InHand said (l, .real)) (right : s.InHand said (r, .real)) :
    (s.arith op l r name).2.Draft waiting said ∧ s.Onward said (s.arith op l r name).2 said ∧
      (s.arith op l r name).2.InHand said ((s.arith op l r name).1, .real) := by
  rcases s.arith_cases op l r name with ⟨_, _, _, _, folded⟩ | emitted
  · rw [folded]
    exact ⟨draft, .refl _ _, inHand_const _ _ _⟩
  · rw [emitted]
    have operands := List.forall_mem_cons.mpr ⟨left, List.forall_mem_singleton.mpr right⟩
    exact ⟨draft.push (.arith op l r) rfl rfl operands name, draft.onward_push _ rfl name,
      draft.inHand_push _ name rfl⟩

theorem Flow.Site.Shape.grows_arith (shape : s.Shape waiting) (op : Arith) (l r : Operand) (name : String) :
    s.func.Grows (s.arith op l r name).2.func := by
  rcases s.arith_cases op l r name with ⟨_, _, _, _, folded⟩ | emitted
  · rw [folded]
    exact .refl _
  · rw [emitted]
    exact shape.grows_push rfl name

theorem Flow.Site.Draft.compare (draft : s.Draft waiting said) (rel : Comparison) {l r : Operand} (name : String)
    (inHand : s.InHand said (l, .real) ∧ s.InHand said (r, .real)) :
    (s.push (.compare rel l r) name).Draft waiting said :=
  draft.push (.compare rel l r) rfl rfl (by simpa [Instr.inputs] using inHand) name

/-- A call whose arguments are at hand. -/
theorem Flow.Site.Draft.call (draft : s.Draft waiting said) (callee : Nat) {args : List Operand} (name : String)
    (inHand : ∀ arg ∈ args, s.InHand said (arg, .real)) :
    (s.push (.call callee args) name).Draft waiting said ∧
      s.Onward said (s.push (.call callee args) name) said ∧
      ∀ value ∈ [s.next], (s.push (.call callee args) name).InHand said (value, .real) := by
  refine ⟨draft.push _ rfl rfl ?_ name, draft.onward_push _ rfl name,
    List.forall_mem_singleton.mpr (draft.inHand_push _ name rfl)⟩
  simpa [Instr.inputs] using inHand

/-- Code from `s` to `t` that keeps a function in order and leaves `values` at hand. -/
def Drafts (scope : Scope) (s : Site) (values : List Operand) (t : Site) : Prop :=
  ∀ ⦃waiting : Nat → Prop⦄ ⦃said : Nat → List Nat⦄, s.Draft waiting said →
    (∀ entry ∈ scope, s.InHand said (entry.2, .place)) →
    ∃ more, t.Draft waiting more ∧ s.Onward said t more ∧ ∀ value ∈ values, t.InHand more (value, .real)

/-- Code can be added here for an expression with the variables `scope`. -/
def Flow.Site.Ready (site : Site) (scope : Scope) : Prop :=
  ∃ waiting said, site.Draft waiting said ∧ ∀ entry ∈ scope, site.InHand said (entry.2, .place)

/-- The places that the code of a condition goes through. -/
structure Branches (scope : Scope) (t : Site) (v : Operand) (u : Site) (a : Operand) (w : Site) (b : Operand) :
    Prop where
  tested : t.Ready scope
  forked : (t.fork v).Ready scope
  ended : u.Ready scope
  other : (t.otherwise v u a).Ready scope
  ended' : w.Ready scope
  joined : (t.meet v w b).Ready scope
  forks : t.func.Grows (t.fork v).func
  runs : (t.fork v).func.Grows u.func
  switches : u.func.Grows (t.otherwise v u a).func
  runs' : (t.otherwise v u a).func.Grows w.func
  joins : w.func.Grows (t.meet v w b).func
  yesEmpty : (t.fork v).func.blockInsts (t.forkBlock v) = []
  noEmpty : (t.otherwise v u a).func.blockInsts (t.forkBlock v + 1) = []
  meetEmpty : (t.meet v w b).func.blockInsts (t.forkBlock v + 2) = []

/-- What is at hand before a condition forks is at hand in both branches and after them. -/
theorem Drafts.cond {t u w : Site} {v a b : Operand} (tested : Drafts scope s [v] t)
    (first : Drafts scope (t.fork v) [a] u) (second : Drafts scope (t.otherwise v u a) [b] w)
    (draft : s.Draft waiting said) (slots : ∀ entry ∈ scope, s.InHand said (entry.2, .place)) :
    ∃ more, (t.meet v w b).Draft waiting more ∧ s.Onward said (t.meet v w b) more ∧
      (t.meet v w b).InHand more (t.forkSlot v, .place) ∧ Branches scope t v u a w b := by
  obtain ⟨said₁, draft₁, onward, inHand⟩ := tested draft slots
  obtain ⟨base, said₂, reached, slot, fresh, forked, forks, noSaid, afterSaid⟩ :=
    draft₁.fork (inHand _ (List.mem_singleton_self _))
  have atBase := fun entry member => (onward.trans reached).inHand (slots entry member)
  obtain ⟨said₃, draft₃, runs, value⟩ := first forked fun entry member => forks.inHand (atBase entry member)
  have branch := forks.trans runs
  rw [← runs.record _ (forked.shape.empty _ (.inl (.inr rfl))).1] at noSaid
  rw [← runs.record _ (forked.shape.empty _ (.inr rfl)).1] at afterSaid
  obtain ⟨ended, grown⟩ := draft₃.endBranch (fun block => waiting block ∨ block = t.forkBlock v + 2)
    (t.forkBlock v + 1) (value _ (List.mem_singleton_self _)) (branch.inHand slot) (fun other => by grind)
    (by grind) (.inr rfl) fun above member => by
      rw [afterSaid] at member
      exact (List.mem_cons.mp member).imp id (branch.above above)
  have other := branch.resume grown noSaid
  obtain ⟨said₄, draft₄, runs', value'⟩ := second ended fun entry member => other.inHand (atBase entry member)
  have branch' := other.trans runs'
  rw [← runs'.record _ (ended.shape.empty _ (.inr rfl)).1] at afterSaid
  obtain ⟨ended', grown'⟩ := draft₄.endBranch waiting (t.forkBlock v + 2)
    (value' _ (List.mem_singleton_self _)) (branch'.inHand slot) (fun _ => or_comm) (fresh _ (by omega))
    (.inr rfl) fun above member => by
      rw [afterSaid] at member
      exact (List.mem_cons.mp member).imp id (branch'.above above)
  have joined := branch'.resume grown' afterSaid
  refine ⟨said₄, ended', (onward.trans reached).trans joined, joined.inHand slot, ?_⟩
  exact {
    tested := ⟨_, _, draft₁, fun entry member => onward.inHand (slots entry member)⟩
    forked := ⟨_, _, forked, fun entry member => forks.inHand (atBase entry member)⟩
    ended := ⟨_, _, draft₃, fun entry member => branch.inHand (atBase entry member)⟩
    other := ⟨_, _, ended, fun entry member => other.inHand (atBase entry member)⟩
    ended' := ⟨_, _, draft₄, fun entry member => branch'.inHand (atBase entry member)⟩
    joined := ⟨_, _, ended', fun entry member => joined.inHand (atBase entry member)⟩
    forks := reached.grows.trans forks.grows
    runs := runs.grows
    switches := grown
    runs' := runs'.grows
    joins := grown'
    yesEmpty := draft₁.shape.fork_empty v
    noEmpty := draft₃.shape.endBranch_empty (.inl (.inr rfl))
    meetEmpty := draft₄.shape.endBranch_empty (.inr rfl) }

/-- The places that the code of a loop goes through; its variable lives in `slot`. -/
structure Rounds (scope : Scope) (name : String) (slot : Operand) (t : Site) (first : Operand) (u : Site)
    (stride value : Operand) : Prop where
  started : t.Ready scope
  entered : (t.enterLoop first slot).Ready ((name, slot) :: scope)
  ended : u.Ready scope
  advanced : (u.advance name slot stride).Ready scope
  left : ((u.advance name slot stride).leaveLoop value t.nextBlock).Ready scope
  enters : t.func.Grows (t.enterLoop first slot).func
  runs : (t.enterLoop first slot).func.Grows u.func
  advances : u.func.Grows (u.advance name slot stride).func
  leaves : (u.advance name slot stride).func.Grows
    ((u.advance name slot stride).leaveLoop value t.nextBlock).func
  topEmpty : (t.enterLoop first slot).func.blockInsts t.nextBlock = []
  leftEmpty : ((u.advance name slot stride).leaveLoop value t.nextBlock).func.blockInsts
    (u.advance name slot stride).nextBlock = []

/-- What is at hand before a loop is at hand in its rounds and after it. -/
theorem Drafts.loop {name : String} {t u : Site} {first ignored stride value : Operand}
    (started : Drafts scope (s.addSlot name) [first] t)
    (round : Drafts ((name, s.next) :: scope) (t.enterLoop first s.next) [ignored, stride, value] u)
    (draft : s.Draft waiting said) (slots : ∀ entry ∈ scope, s.InHand said (entry.2, .place)) :
    ∃ more, ((u.advance name s.next stride).leaveLoop value t.nextBlock).Draft waiting more ∧
      s.Onward said ((u.advance name s.next stride).leaveLoop value t.nextBlock) more ∧
      Rounds scope name s.next t first u stride value := by
  have adds := draft.onward_addSlot name
  obtain ⟨said₁, draft₁, onward, inHand⟩ := started (draft.addSlot name) fun entry member =>
    adds.inHand (slots entry member)
  have place := onward.inHand (draft.inHand_addSlot name)
  have begun := adds.trans onward
  obtain ⟨said₂, entered, enters⟩ := draft₁.enterLoop (inHand _ (List.mem_singleton_self _)) place
  have top := begun.trans enters
  have inScope : ∀ entry ∈ (name, s.next) :: scope, (t.enterLoop first s.next).InHand said₂ (entry.2, .place) :=
    List.forall_mem_cons.mpr ⟨enters.inHand place, fun entry member => top.inHand (slots entry member)⟩
  obtain ⟨said₃, draft₃, runs, values⟩ := round entered inScope
  have inside : t.nextBlock < u.func.blocks.size := Nat.lt_of_lt_of_le entered.shape.here runs.grows.blocks
  obtain ⟨advanced, advances⟩ := draft₃.advance name (runs.inHand (enters.inHand place))
    (values stride (by simp))
  obtain ⟨said₄, left, leaves⟩ := advanced.leaveLoop (advances.inHand (values value (by simp)))
    (Nat.lt_of_lt_of_le inside advances.grows.blocks) (Nat.ne_of_gt draft₁.shape.arranged.nonempty)
    fun above member => by
      rw [runs.record t.nextBlock entered.shape.here] at member
      exact .inr (runs.above above member)
  have done := top.trans runs
  have moved := done.trans advances
  have out := moved.trans leaves
  refine ⟨said₄, left, out, ?_⟩
  exact {
    started := ⟨_, _, draft₁, fun entry member => begun.inHand (slots entry member)⟩
    entered := ⟨_, _, entered, inScope⟩
    ended := ⟨_, _, draft₃, fun entry member => done.inHand (slots entry member)⟩
    advanced := ⟨_, _, advanced, fun entry member => moved.inHand (slots entry member)⟩
    left := ⟨_, _, left, fun entry member => out.inHand (slots entry member)⟩
    enters := enters.grows
    runs := runs.grows
    advances := advances.grows
    leaves := leaves.grows
    topEmpty := draft₁.shape.enterLoop_empty first s.next
    leftEmpty := advanced.shape.leaveLoop_empty value t.nextBlock }

/-- Code keeps a function in order, and its values are at hand where it ends. -/
theorem Lowers.draft (code : Lowers m scope exprs s values t) : Drafts scope s values t := by
  induction code with
  | nil =>
    intro waiting said draft slots
    exact ⟨said, draft, .refl _ _, List.forall_mem_nil _⟩
  | cons first others ih ih' =>
    intro waiting said draft slots
    obtain ⟨more, draft, onward, inHand⟩ := ih draft slots
    obtain ⟨most, draft, later, inHand'⟩ := ih' draft fun entry member => onward.inHand (slots entry member)
    refine ⟨most, draft, onward.trans later, List.forall_mem_cons.mpr ⟨later.inHand (inHand _ ?_), inHand'⟩⟩
    exact List.mem_singleton_self _
  | number =>
    intro waiting said draft slots
    exact ⟨said, draft, .refl _ _, List.forall_mem_singleton.mpr (inHand_const _ _ _)⟩
  | @var scope name slot s bound =>
    intro waiting said draft slots
    refine ⟨said, draft.push _ rfl rfl (List.forall_mem_singleton.mpr ?_) name, draft.onward_push _ rfl name,
      List.forall_mem_singleton.mpr (draft.inHand_push _ name rfl)⟩
    exact slots _ (Scope.mem_of_lookup bound)
  | assign value bound ih =>
    intro waiting said draft slots
    obtain ⟨more, draft, onward, inHand⟩ := ih draft slots
    have place := onward.inHand (slots _ (Scope.mem_of_lookup bound))
    obtain ⟨stored, stores⟩ := draft.store (inHand _ (List.mem_singleton_self _)) place
    exact ⟨more, stored, onward.trans stores, fun value member => stores.inHand (inHand value member)⟩
  | @arith scope symbol op hint lhs rhs s t l r known operands ih =>
    intro waiting said draft slots
    obtain ⟨more, draft, onward, inHand⟩ := ih draft slots
    obtain ⟨left, right⟩ := List.forall_mem_cons.mp inHand
    obtain ⟨added, adds, result⟩ := draft.arith op hint left (right _ (List.mem_singleton_self _))
    exact ⟨more, added, onward.trans adds, List.forall_mem_singleton.mpr result⟩
  | @less scope lhs rhs s t l r operands ih =>
    intro waiting said draft slots
    obtain ⟨more, draft, onward, inHand⟩ := ih draft slots
    have compares := draft.onward_push (.compare .less l r) rfl "cmptmp"
    have compared := draft.compare .less "cmptmp" (by simpa using inHand)
    have flag := draft.inHand_push (.compare .less l r) "cmptmp" rfl
    refine ⟨more, compared.push (.toReal t.next) rfl rfl (List.forall_mem_singleton.mpr flag) "booltmp",
      (onward.trans compares).trans (compared.onward_push _ rfl "booltmp"), ?_⟩
    exact List.forall_mem_singleton.mpr (compared.inHand_push _ "booltmp" rfl)
  | @binary scope symbol callee lhs rhs s t l r user operands found ih =>
    intro waiting said draft slots
    obtain ⟨more, draft, onward, inHand⟩ := ih draft slots
    obtain ⟨called, calls, result⟩ := draft.call callee "binop" inHand
    exact ⟨more, called, onward.trans calls, result⟩
  | @unary scope symbol callee operand s t v value found ih =>
    intro waiting said draft slots
    obtain ⟨more, draft, onward, inHand⟩ := ih draft slots
    obtain ⟨called, calls, result⟩ := draft.call callee "unop" inHand
    exact ⟨more, called, onward.trans calls, result⟩
  | @call scope name callee args s t vs found count values ih =>
    intro waiting said draft slots
    obtain ⟨more, draft, onward, inHand⟩ := ih draft slots
    obtain ⟨called, calls, result⟩ := draft.call callee "calltmp" inHand
    exact ⟨more, called, onward.trans calls, result⟩
  | @cond scope test yes no s t u w v a b tested first second ih ih' ih'' =>
    intro waiting said draft slots
    obtain ⟨more, joined, onward, slot, _⟩ := Drafts.cond ih ih' ih'' draft slots
    refine ⟨more, joined.push (.load _) rfl rfl (List.forall_mem_singleton.mpr slot) "iftmp",
      onward.trans (joined.onward_push _ rfl "iftmp"), ?_⟩
    exact List.forall_mem_singleton.mpr (joined.inHand_push _ "iftmp" rfl)
  | @loop scope name start stop body step s t u first value stride ignored started round ih ih' =>
    intro waiting said draft slots
    obtain ⟨more, left, onward, _⟩ := Drafts.loop ih ih' draft slots
    exact ⟨more, left, onward, List.forall_mem_singleton.mpr (inHand_const _ _ _)⟩
  | bindNone value ih =>
    intro waiting said draft slots
    exact ih draft slots
  | @bindOne scope name init body bindings s t u v w value others ih ih' =>
    intro waiting said draft slots
    obtain ⟨more, draft, onward, inHand⟩ := ih draft slots
    obtain ⟨bound, binds, place⟩ := draft.newVariable name (inHand _ (List.mem_singleton_self _))
    obtain ⟨most, draft, later, result⟩ := ih' bound (List.forall_mem_cons.mpr
      ⟨place, fun entry member => binds.inHand (onward.inHand (slots entry member))⟩)
    exact ⟨most, draft, (onward.trans binds).trans later, result⟩

/-- A constant, a parameter or the result of an instruction that is there already. -/
def Flow.Site.Older (site : Site) (operand : Operand) : Prop :=
  ∀ id, operand = .inst id → id < site.func.insts.size

theorem Flow.Site.InHand.older {operand : Operand} {kind : Kind} (inHand : s.InHand said (operand, kind)) :
    s.Older operand := by
  rintro id rfl
  obtain ⟨instr, found, _⟩ := Option.bind_eq_some_iff.mp inHand.1
  exact Function.instr?_lt found

theorem Lowers.ready (code : Lowers m scope exprs s values t) (ready : s.Ready scope) :
    t.Ready scope ∧ s.func.Grows t.func ∧ ∀ value ∈ values, t.Older value := by
  obtain ⟨waiting, said, draft, slots⟩ := ready
  obtain ⟨more, done, onward, inHand⟩ := code.draft draft slots
  exact ⟨⟨waiting, more, done, fun entry member => onward.inHand (slots entry member)⟩, onward.grows,
    fun value member => (inHand value member).older⟩

theorem Flow.Site.Ready.older (ready : s.Ready scope) : ∀ slot ∈ scope.map Prod.snd, s.Older slot := by
  obtain ⟨waiting, said, draft, slots⟩ := ready
  intro slot member
  obtain ⟨entry, inScope, same⟩ := List.mem_map.mp member
  exact same ▸ (slots entry inScope).older

/-- A new slot is none of those in scope. -/
theorem Flow.Site.Ready.next_notMem (ready : s.Ready scope) : s.next ∉ scope.map Prod.snd :=
  fun member => Nat.lt_irrefl _ (ready.older _ member _ rfl)

theorem Flow.Site.Ready.addSlot (ready : s.Ready scope) (name : String) : (s.addSlot name).Ready scope := by
  obtain ⟨waiting, said, draft, slots⟩ := ready
  exact ⟨waiting, said, draft.addSlot name, fun entry member =>
    (draft.onward_addSlot name).inHand (slots entry member)⟩

/-- A new variable is there for the code that follows its initial value. -/
theorem Lowers.readyVariable {v : Operand} (code : Lowers m scope exprs s [v] t) (name : String)
    (ready : s.Ready scope) :
    (t.newVariable name v).Ready ((name, t.next) :: scope) ∧ t.func.Grows (t.newVariable name v).func := by
  obtain ⟨waiting, said, draft, slots⟩ := ready
  obtain ⟨more, done, onward, inHand⟩ := code.draft draft slots
  obtain ⟨bound, binds, place⟩ := done.newVariable name (inHand v (List.mem_singleton_self v))
  refine ⟨⟨waiting, more, bound, List.forall_mem_cons.mpr ⟨place, fun entry member => ?_⟩⟩, binds.grows⟩
  exact binds.inHand (onward.inHand (slots entry member))

theorem Lowers.branches {test yes no : Expr} {u w : Site} {v a b : Operand} (tested : Lowers m scope [test] s [v] t)
    (first : Lowers m scope [yes] (t.fork v) [a] u) (second : Lowers m scope [no] (t.otherwise v u a) [b] w)
    (ready : s.Ready scope) : Branches scope t v u a w b := by
  obtain ⟨waiting, said, draft, slots⟩ := ready
  obtain ⟨_, _, _, _, places⟩ := Drafts.cond tested.draft first.draft second.draft draft slots
  exact places

theorem Lowers.rounds {name : String} {start : Expr} {parts : List Expr} {u : Site}
    {first ignored stride value : Operand} (started : Lowers m scope [start] (s.addSlot name) [first] t)
    (round : Lowers m ((name, s.next) :: scope) parts (t.enterLoop first s.next) [ignored, stride, value] u)
    (ready : s.Ready scope) : Rounds scope name s.next t first u stride value := by
  obtain ⟨waiting, said, draft, slots⟩ := ready
  obtain ⟨_, _, _, places⟩ := Drafts.loop started.draft round.draft draft slots
  exact places

end Kaleidoscope
