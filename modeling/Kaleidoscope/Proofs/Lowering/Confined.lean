import Kaleidoscope.Proofs.Lowering.Draft

/-!
Values that stay in their blocks. Slots can be used all over a function; what else an instruction computes is confined
if only instructions of the same block use it. Each way of extending a function either keeps what is confined or uses a
value of another block.
-/

namespace Kaleidoscope.Flow

namespace Function

/-- No instruction uses a value that is computed in another block, slots apart. -/
def Confined (f : Function) : Prop :=
  ∀ block ∈ f.layout, ∀ id ∈ f.blockInsts block, ∀ source, .inst source ∈ f.operandsOf id →
    f.isSlot source = false → source ∈ f.blockInsts block

/-- `g` is `f` with a new instruction in a block. -/
structure Adds (f : Function) (block : Nat) (instr : Instr) (g : Function) : Prop where
  layout : g.layout = f.layout
  size : g.insts.size = f.insts.size + 1
  instrs : ∀ id, g.instr? id = if id = f.insts.size then some instr else f.instr? id
  members : ∀ other id, id ∈ g.blockInsts other ↔ id ∈ f.blockInsts other ∨ other = block ∧ id = f.insts.size

/-- No instruction uses one that is still to come. -/
def Backward (f : Function) : Prop :=
  ∀ block, ∀ id ∈ f.blockInsts block, ∀ source, .inst source ∈ f.operandsOf id → source < f.insts.size

variable {f g : Function} {block : Nat} {instr : Instr}

namespace Adds

variable (adds : f.Adds block instr g)

include adds

private theorem operandsOf_old {id : Nat} (inside : id < f.insts.size) : g.operandsOf id = f.operandsOf id := by
  simp only [operandsOf, adds.instrs, if_neg (Nat.ne_of_lt inside)]

theorem operandsOf_new : g.operandsOf f.insts.size = instr.operands := by
  simp only [operandsOf, adds.instrs, if_true]

private theorem isSlot_old {id : Nat} (inside : id < f.insts.size) : g.isSlot id = f.isSlot id :=
  isSlot_congr ((adds.instrs id).trans (if_neg (Nat.ne_of_lt inside)))

private theorem mem_old {other id : Nat} (inside : id < f.insts.size) :
    id ∈ g.blockInsts other ↔ id ∈ f.blockInsts other := by
  rw [adds.members]
  exact or_iff_left fun new => Nat.ne_of_lt inside new.2

theorem backward (arranged : f.Arranged) (backward : f.Backward)
    (older : ∀ source, .inst source ∈ instr.operands → source < f.insts.size) : g.Backward := by
  intro other id member source used
  rw [adds.size]
  apply Nat.lt_succ_of_lt
  rcases (adds.members other id).mp member with old | ⟨_, rfl⟩
  · rw [adds.operandsOf_old (arranged.inRange other id old)] at used
    exact backward other id old source used
  · rw [adds.operandsOf_new] at used
    exact older source used

/-- With a new instruction a function stays confined exactly if the operands are slots or come from the same block. -/
theorem confined_iff (arranged : f.Arranged) (backward : f.Backward) (inside : block ∈ f.layout)
    (older : ∀ source, .inst source ∈ instr.operands → source < f.insts.size) :
    g.Confined ↔ f.Confined ∧
      ∀ source, .inst source ∈ instr.operands → f.isSlot source = false → source ∈ f.blockInsts block := by
  constructor
  · intro confined
    constructor
    · intro other placed id member source used plain
      have old := arranged.inRange other id member
      have before := backward other id member source used
      rw [← adds.layout] at placed
      rw [← adds.operandsOf_old old] at used
      rw [← adds.isSlot_old before] at plain
      exact (adds.mem_old before).mp (confined other placed id ((adds.mem_old old).mpr member) source used plain)
    · intro source used plain
      have before := older source used
      rw [← adds.layout] at inside
      rw [← adds.operandsOf_new] at used
      rw [← adds.isSlot_old before] at plain
      have new := (adds.members block f.insts.size).mpr (.inr ⟨rfl, rfl⟩)
      exact (adds.mem_old before).mp (confined block inside _ new source used plain)
  · rintro ⟨confined, close⟩ other placed id member source used plain
    rw [adds.layout] at placed
    rcases (adds.members other id).mp member with old | ⟨rfl, rfl⟩
    · rw [adds.operandsOf_old (arranged.inRange other id old)] at used
      have before := backward other id old source used
      rw [adds.isSlot_old before] at plain
      exact (adds.mem_old before).mpr (confined other placed id old source used plain)
    · rw [adds.operandsOf_new] at used
      have before := older source used
      rw [adds.isSlot_old before] at plain
      exact (adds.mem_old before).mpr (close source used plain)

end Adds

end Function

namespace Site

/-- An operand that an instruction at the insertion point would not take from another block. -/
def Local (site : Site) (operand : Operand) : Prop :=
  ∀ source, operand = .inst source → site.func.isSlot source = false → source ∈ site.func.blockInsts site.block

/-- An operand that is there and need not be taken from another block. -/
structure Near (site : Site) (operand : Operand) : Prop where
  older : site.Older operand
  close : site.Local operand

/-- A function under construction with its blocks in order. -/
structure Tidy (site : Site) : Prop where
  arranged : site.func.Arranged
  backward : site.func.Backward
  here : site.block < site.func.blocks.size

/-- Building went on in the same block from `s` to `t`: what was at hand still is. -/
structure Stays (s t : Site) : Prop where
  tidy : t.Tidy
  older : ∀ {value : Operand}, s.Older value → t.Older value
  local_iff : ∀ {value : Operand}, s.Older value → (t.Local value ↔ s.Local value)

/-- And nothing new was taken from another block. -/
structure Quiet (s t : Site) : Prop extends s.Stays t where
  confined : t.func.Confined ↔ s.func.Confined

variable {s t u : Site} {instr : Instr} {name : String} {value : Operand}

theorem Stays.trans (first : s.Stays t) (second : t.Stays u) : s.Stays u where
  tidy := second.tidy
  older := fun older => second.older (first.older older)
  local_iff := fun older => (second.local_iff (first.older older)).trans (first.local_iff older)

theorem Quiet.trans (first : s.Quiet t) (second : t.Quiet u) : s.Quiet u :=
  ⟨first.toStays.trans second.toStays, second.confined.trans first.confined⟩

private theorem stays_of_adds {block : Nat} (adds : s.func.Adds block instr t.func) (tidy : t.Tidy)
    (same : t.block = s.block) : s.Stays t := by
  refine ⟨tidy, fun before source eq => ?_, fun before => ?_⟩
  · rw [adds.size]
    exact Nat.lt_succ_of_lt (before source eq)
  · apply forall_congr'
    intro source
    apply imp_congr_right
    intro eq
    rw [adds.isSlot_old (before source eq), same, adds.mem_old (before source eq)]

theorem Draft.tidy {waiting : Nat → Prop} {said : Nat → List Nat} (draft : s.Draft waiting said) : s.Tidy where
  arranged := draft.shape.arranged
  here := draft.shape.here
  backward := by
    intro block id member source used
    have inputs : s.func.operandsOf id = (s.func.inputsOf id).map Prod.fst := by
      unfold Function.operandsOf Function.inputsOf
      cases s.func.instr? id with
      | some instr => exact instr.operands_eq_inputs
      | none => rfl
    rw [inputs] at used
    obtain ⟨⟨operand, kind⟩, asked, rfl⟩ := List.mem_map.mp used
    obtain ⟨typed, _⟩ := draft.certified.operands block id member _ asked
    obtain ⟨instr, found, _⟩ := Option.bind_eq_some_iff.mp typed
    exact Function.instr?_lt found

theorem Ready.tidy {scope : Scope} (ready : s.Ready scope) : s.Tidy := by
  obtain ⟨waiting, said, draft, _⟩ := ready
  exact draft.tidy

theorem local_slot {source : Nat} (slot : s.func.isSlot source = true) : s.Local (.inst source) := by
  intro other same plain
  cases same
  rw [slot] at plain
  contradiction

theorem near_const (s : Site) (value : Double) : s.Near (.const value) :=
  ⟨fun _ same => by contradiction, fun _ same => by contradiction⟩

theorem near_param (s : Site) (index : Nat) : s.Near (.param index) :=
  ⟨fun _ same => by contradiction, fun _ same => by contradiction⟩

theorem Stays.near (stays : s.Stays t) (near : s.Near value) : t.Near value :=
  ⟨stays.older near.older, (stays.local_iff near.older).mpr near.close⟩

theorem adds_push (tidy : s.Tidy) (instr : Instr) (name : String) :
    s.func.Adds s.block instr (s.push instr name).func where
  layout := rfl
  size := push_insts_size s instr name
  instrs := instr?_push s instr name
  members := by
    intro other id
    rw [blockInsts_push tidy.here]
    by_cases same : other = s.block
    · simp [same]
    · simp [same]

theorem adds_addSlot (tidy : s.Tidy) (name : String) : s.func.Adds 0 .slot (s.addSlot name).func where
  layout := by rw [addSlot_func tidy.arranged]; rfl
  size := by simp [addSlot_func tidy.arranged, Function.addSlotTo]
  instrs := instr?_addSlot tidy.arranged name
  members := mem_addSlot tidy.arranged

theorem Tidy.mem_layout (tidy : s.Tidy) {block : Nat} (inside : block < s.func.blocks.size) : block ∈ s.func.layout :=
  tidy.arranged.layout.mem_iff.mpr (List.mem_range.mpr inside)

theorem Tidy.push (tidy : s.Tidy) (instr : Instr) (plain : instr.isSlot = false)
    (older : ∀ operand ∈ instr.operands, s.Older operand) (name : String) : (s.push instr name).Tidy where
  arranged := tidy.arranged.addInst tidy.here plain
  backward := (adds_push tidy instr name).backward tidy.arranged tidy.backward fun source used => older _ used _ rfl
  here := by simpa using tidy.here

theorem confined_push (tidy : s.Tidy) (instr : Instr) (older : ∀ operand ∈ instr.operands, s.Older operand)
    (name : String) :
    (s.push instr name).func.Confined ↔ s.func.Confined ∧ ∀ operand ∈ instr.operands, s.Local operand := by
  rw [(adds_push tidy instr name).confined_iff tidy.arranged tidy.backward (tidy.mem_layout tidy.here)
    fun source used => older _ used _ rfl]
  apply and_congr_right
  intro _
  constructor
  · intro close operand used source same plain
    exact close source (same ▸ used) plain
  · intro close source used plain
    exact close _ used source rfl plain

theorem stays_push (tidy : s.Tidy) (instr : Instr) (plain : instr.isSlot = false)
    (older : ∀ operand ∈ instr.operands, s.Older operand) (name : String) : s.Stays (s.push instr name) :=
  stays_of_adds (adds_push tidy instr name) (tidy.push instr plain older name) rfl

theorem quiet_push (tidy : s.Tidy) (instr : Instr) (plain : instr.isSlot = false)
    (near : ∀ operand ∈ instr.operands, s.Near operand) (name : String) : s.Quiet (s.push instr name) := by
  have older := fun operand used => (near operand used).older
  refine ⟨stays_push tidy instr plain older name, (confined_push tidy instr older name).trans (and_iff_left ?_)⟩
  exact fun operand used => (near operand used).close

theorem quiet_addSlot (tidy : s.Tidy) (name : String) : s.Quiet (s.addSlot name) := by
  have adds := adds_addSlot tidy name
  have none : ∀ source, .inst source ∈ Instr.slot.operands → source < s.func.insts.size :=
    fun _ used => by contradiction
  refine ⟨stays_of_adds adds ⟨tidy.arranged.addSlot, adds.backward tidy.arranged tidy.backward none, ?_⟩ rfl, ?_⟩
  · simpa [addSlot_blocks_size tidy.arranged] using tidy.here
  · rw [adds.confined_iff tidy.arranged tidy.backward (tidy.mem_layout tidy.arranged.nonempty) none]
    exact and_iff_left fun _ used => by contradiction

private theorem isSlot_addSlot (tidy : s.Tidy) (name : String) :
    (s.addSlot name).func.isSlot s.func.insts.size = true := by
  simp [Function.isSlot, instr?_addSlot tidy.arranged, Instr.isSlot]

/-- Blocks come and move without their instructions. -/
theorem quiet_of_same (tidy : t.Tidy) (insts : ∀ block, t.func.blockInsts block = s.func.blockInsts block)
    (same : t.func.insts = s.func.insts) (block : t.block = s.block)
    (layout : ∀ block, block ∈ t.func.layout ∧ t.func.blockInsts block ≠ [] ↔
      block ∈ s.func.layout ∧ s.func.blockInsts block ≠ []) : s.Quiet t := by
  have instrs (id : Nat) : t.func.instr? id = s.func.instr? id := by simp only [Function.instr?, Function.inst?, same]
  have operands (id : Nat) : t.func.operandsOf id = s.func.operandsOf id := by
    simp only [Function.operandsOf, instrs]
  have slots (id : Nat) : t.func.isSlot id = s.func.isSlot id := Function.isSlot_congr (instrs id)
  refine ⟨⟨tidy, fun before source eq => same ▸ before source eq, fun _ => ?_⟩, ?_⟩
  · simp only [Local, slots, insts, block]
  · constructor
    · intro confined block placed id member source used plain
      have placed' := ((layout block).mpr ⟨placed, List.ne_nil_of_mem member⟩).1
      rw [← insts] at member ⊢
      exact confined block placed' id member source (operands id ▸ used) (slots source ▸ plain)
    · intro confined block placed id member source used plain
      have placed' := ((layout block).mp ⟨placed, List.ne_nil_of_mem member⟩).1
      rw [insts] at member ⊢
      rw [operands] at used
      rw [slots] at plain
      exact confined block placed' id member source used plain

theorem quiet_addBlock (tidy : s.Tidy) (name : String) : s.Quiet (s.addBlock name) := by
  have insts (block : Nat) : (s.addBlock name).func.blockInsts block = s.func.blockInsts block :=
    Function.blockInsts_addBlock s.func block name
  have arranged : (s.addBlock name).func.Arranged := tidy.arranged.addBlock
  have empty : s.func.blockInsts s.func.blocks.size = [] := Function.blockInsts_eq_nil _ _ (Nat.le_refl _)
  refine quiet_of_same ⟨arranged, fun block id member => ?_, ?_⟩ insts rfl rfl fun block => ?_
  · rw [insts] at member
    exact tidy.backward block id member
  · rw [addBlock_block, addBlock_blocks_size]
    exact Nat.lt_succ_of_lt tidy.here
  · rw [insts]
    simp only [addBlock, Function.addBlock, List.mem_append, List.mem_singleton]
    constructor
    · rintro ⟨old | rfl, some⟩
      · exact ⟨old, some⟩
      · contradiction
    · rintro ⟨old, some⟩
      exact ⟨.inl old, some⟩

private theorem quiet_moveToEnd (tidy : s.Tidy) {block : Nat} (inside : block < s.func.blocks.size)
    (notFirst : block ≠ 0) : s.Quiet (s.moveToEnd block) := by
  have here := tidy.mem_layout inside
  refine quiet_of_same ⟨tidy.arranged.moveToEnd inside notFirst, tidy.backward, tidy.here⟩ (fun _ => rfl) rfl rfl
    fun other => and_congr_left fun _ => ?_
  simp only [moveToEnd, Function.moveToEnd, List.mem_append, List.mem_filter, List.mem_singleton]
  by_cases same : other = block
  · simp [same, here]
  · simp [same]

/-- The result of an instruction is there for the next one of its block. -/
theorem near_push (tidy : s.Tidy) (instr : Instr) (name : String) : (s.push instr name).Near s.next := by
  constructor
  · intro source same
    cases same
    simp
  · intro source same _
    cases same
    simp [blockInsts_push tidy.here]

theorem near_addSlot (tidy : s.Tidy) (name : String) : (s.addSlot name).Near s.next := by
  refine ⟨fun source same => ?_, local_slot (isSlot_addSlot tidy name)⟩
  cases same
  rw [(adds_addSlot tidy name).size]
  exact Nat.lt_succ_self _

theorem quiet_test (tidy : s.Tidy) (near : s.Near value) (name : String) : s.Quiet (s.test value name) := by
  refine quiet_push tidy (.compare .differ value (.const .zero)) rfl ?_ name
  exact List.forall_mem_cons.mpr ⟨near, List.forall_mem_singleton.mpr (near_const _ _)⟩

theorem quiet_load {slot : Operand} (tidy : s.Tidy) (place : s.Near slot) (name : String) :
    s.Quiet (s.push (.load slot) name) :=
  quiet_push tidy (.load slot) rfl (List.forall_mem_singleton.mpr place) name

theorem quiet_store {slot : Operand} (tidy : s.Tidy) (near : s.Near value) (place : s.Near slot) :
    s.Quiet (s.push (.store value slot) "") :=
  quiet_push tidy (.store value slot) rfl (List.forall_mem_cons.mpr ⟨near, List.forall_mem_singleton.mpr place⟩) ""

private theorem quiet_jump (tidy : s.Tidy) (dest : Nat) : s.Quiet (s.push (.jump dest) "") :=
  quiet_push tidy (.jump dest) rfl (List.forall_mem_nil _) ""

private theorem quiet_branch (tidy : s.Tidy) {flag : Operand} (near : s.Near flag) (yes no : Nat) :
    s.Quiet (s.push (.branch flag yes no) "") :=
  quiet_push tidy (.branch flag yes no) rfl (List.forall_mem_singleton.mpr near) ""

theorem quiet_newVariable (tidy : s.Tidy) (near : s.Near value) (name : String) :
    s.Quiet (s.newVariable name value) := by
  have slot := quiet_addSlot tidy name
  exact slot.trans (quiet_store slot.tidy (slot.near near) (near_addSlot tidy name))

theorem confined_fork (tidy : s.Tidy) (near : s.Near value) : (s.fork value).func.Confined ↔ s.func.Confined := by
  have tested := quiet_test tidy near "ifcond"
  have slot := quiet_addSlot tested.tidy "iftmp"
  have yes := quiet_addBlock slot.tidy "then"
  have no := quiet_addBlock yes.tidy "else"
  have after := quiet_addBlock no.tidy "ifcont"
  have blocks : (s.test value "ifcond").Quiet (s.forkBlocks value) := slot.trans (yes.trans (no.trans after))
  have flag := blocks.near (near_push tidy (.compare .differ value (.const .zero)) "ifcond")
  have branch := quiet_branch blocks.tidy flag (s.forkBlock value) (s.forkBlock value + 1)
  exact (tested.trans (blocks.trans branch)).confined

theorem confined_endBranch {slot : Operand} {next : Nat} (tidy : s.Tidy) (near : s.Near value) (place : s.Near slot)
    (inside : next < s.func.blocks.size) (notFirst : next ≠ 0) (after : Nat) :
    (s.endBranch value slot after next).func.Confined ↔ s.func.Confined := by
  have stored := quiet_store tidy near place
  have jumped := quiet_jump stored.tidy after
  have inside' : next < ((s.push (.store value slot) "").push (.jump after) "").func.blocks.size := by
    simpa using inside
  exact (stored.trans (jumped.trans (quiet_moveToEnd jumped.tidy inside' notFirst))).confined

theorem confined_enterLoop {slot : Operand} (tidy : s.Tidy) (near : s.Near value) (place : s.Near slot) :
    (s.enterLoop value slot).func.Confined ↔ s.func.Confined := by
  have stored := quiet_store tidy near place
  have block := quiet_addBlock stored.tidy "loop"
  exact (stored.trans (block.trans (quiet_jump block.tidy s.nextBlock))).confined

/-- A loop adds its step to its variable, in whatever block the step was computed. -/
theorem stays_advance {slot stride : Operand} (tidy : s.Tidy) (place : s.Near slot) (older : s.Older stride)
    (name : String) :
    s.Stays (s.advance name slot stride) ∧
      ((s.advance name slot stride).func.Confined ↔ s.func.Confined ∧ s.Local stride) := by
  have loaded := quiet_load tidy place name
  have current := near_push tidy (.load slot) name
  have operands : ∀ operand ∈ [s.next, stride], (s.push (.load slot) name).Older operand :=
    List.forall_mem_cons.mpr ⟨current.older, List.forall_mem_singleton.mpr (loaded.older older)⟩
  have added := stays_push loaded.tidy (.arith .add s.next stride) rfl operands "nextvar"
  have sum := near_push loaded.tidy (.arith .add s.next stride) "nextvar"
  have stored := quiet_store added.tidy sum (added.near (loaded.near place))
  refine ⟨loaded.toStays.trans (added.trans stored.toStays), stored.confined.trans ?_⟩
  rw [confined_push loaded.tidy (.arith .add s.next stride) operands, loaded.confined]
  apply and_congr_right
  intro _
  simp [Instr.operands, current.close, loaded.local_iff older]

theorem confined_leaveLoop (tidy : s.Tidy) (near : s.Near value) (top : Nat) :
    (s.leaveLoop value top).func.Confined ↔ s.func.Confined := by
  have tested := quiet_test tidy near "loopcond"
  have block := quiet_addBlock tested.tidy "afterloop"
  have flag := block.near (near_push tidy (.compare .differ value (.const .zero)) "loopcond")
  exact (tested.trans (block.trans (quiet_branch block.tidy flag top s.nextBlock))).confined

end Site

end Kaleidoscope.Flow
