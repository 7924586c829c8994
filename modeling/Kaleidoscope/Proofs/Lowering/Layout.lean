import Kaleidoscope.Proofs.Lowering.Chronology
import Kaleidoscope.Proofs.Lowering.Sequenced
import Mathlib.Data.List.Infix

/-!
Functions are laid out as they are written. The blocks of a condition are made before its branches are lowered, and two
of them move to their places afterwards, so that the layout is out of order in between. The layout of a finished
function follows its expression, and its slots stand at the top in the order in which they were made.
-/

namespace Kaleidoscope

open Kaleidoscope.Flow

namespace Flow

/-- The blocks of some code as the layout has them, each with its number and its name. The code is lowered when the
given number is the next free one. -/
def Plan := Nat → List (Nat × String)

namespace Plan

def none : Plan := fun _ => []

def block (name : String) : Plan := fun next => [(next, name)]

def andThen (first second : Plan) : Plan := fun next => first next ++ second (next + (first next).length)

/-- The blocks of a condition, whose own three are numbered before those of its branches. -/
def condition (yes no : Plan) : Plan := fun fork =>
  (fork, "then") :: yes (fork + 3) ++ (fork + 1, "else") :: no (fork + 3 + (yes (fork + 3)).length) ++
    [(fork + 2, "ifcont")]

/-- The blocks of a part stand together in the whole, whatever numbers they have. -/
def Inside (part whole : Plan) : Prop := ∀ next, ∃ start, part start <:+: whole next

variable {first second third : Plan}

@[simp] theorem none_andThen (plan : Plan) : none.andThen plan = plan := by
  funext next
  simp [none, andThen]

@[simp] theorem andThen_none (plan : Plan) : plan.andThen none = plan := by
  funext next
  simp [none, andThen]

private theorem andThen_assoc (first second third : Plan) :
    (first.andThen second).andThen third = first.andThen (second.andThen third) := by
  funext next
  simp [andThen, Nat.add_assoc]

theorem Inside.trans (inner : first.Inside second) (outer : second.Inside third) : first.Inside third := by
  intro next
  obtain ⟨middle, within⟩ := outer next
  obtain ⟨start, within'⟩ := inner middle
  exact ⟨start, within'.trans within⟩

private theorem inside_refl (plan : Plan) : plan.Inside plan := fun next => ⟨next, List.infix_rfl⟩

private theorem inside_andThen_left (first second : Plan) : first.Inside (first.andThen second) :=
  fun next => ⟨next, (List.prefix_append _ _).isInfix⟩

private theorem inside_andThen_right (first second : Plan) : second.Inside (first.andThen second) :=
  fun _ => ⟨_, (List.suffix_append _ _).isInfix⟩

private theorem inside_condition_yes (yes no : Plan) : yes.Inside (condition yes no) :=
  fun fork => ⟨fork + 3, [(fork, "then")], _, by simp only [condition, List.append_assoc]; rfl⟩

private theorem inside_condition_no (yes no : Plan) : no.Inside (condition yes no) :=
  fun fork => ⟨fork + 3 + (yes (fork + 3)).length, (fork, "then") :: yes (fork + 3) ++ [(fork + 1, "else")],
    [(fork + 2, "ifcont")], by simp only [condition, List.append_assoc, List.cons_append, List.nil_append]⟩

end Plan

end Flow

namespace Expr

mutual

/-- The blocks of an expression. A loop has its step and its test behind its body. -/
def blocks : Expr → Plan
  | .number _ | .var _ | .declaration _ | .definition _ _ => .none
  | .binary _ lhs rhs => (blocks lhs).andThen (blocks rhs)
  | .unary _ operand => blocks operand
  | .cond test yes no => (blocks test).andThen (.condition (blocks yes) (blocks no))
  | .loop _ start stop step body =>
    (blocks start).andThen <| .andThen (.block "loop") <|
      (blocks body).andThen <| (blocksStep step).andThen <| (blocks stop).andThen (.block "afterloop")
  | .call _ args => blocksAll args
  | .bind bindings body => (blocksBindings bindings).andThen (blocks body)

def blocksStep : Option Expr → Plan
  | none => .none
  | some step => blocks step

def blocksAll : List Expr → Plan
  | [] => .none
  | e :: es => (blocks e).andThen (blocksAll es)

def blocksBindings : List (String × Expr) → Plan
  | [] => .none
  | (_, init) :: bindings => (blocks init).andThen (blocksBindings bindings)

end

/-- An expression is the whole, or stands in it at any depth. -/
inductive Within (e : Expr) : Expr → Prop where
  | self : Within e e
  | deeper {part whole : Expr} (inner : Within e part) (member : part ∈ whole.children) : Within e whole

open Plan

private theorem blocksAll_one (e : Expr) : blocksAll [e] = e.blocks := by simp [blocksAll]

private theorem blocksAll_cons (e : Expr) (es : List Expr) :
    blocksAll (e :: es) = (blocksAll [e]).andThen (blocksAll es) := by
  simp [blocksAll]

private theorem blocks_binary (op : Char) (lhs rhs : Expr) : blocks (.binary op lhs rhs) = blocksAll [lhs, rhs] := by
  simp [blocks, blocksAll]

private theorem blocks_loop (name : String) (start stop body : Expr) (step : Option Expr) :
    blocks (.loop name start stop step body) = (blocksAll [start]).andThen (.andThen (.block "loop")
      ((blocksAll [body, step.getD (.number .one), stop]).andThen (.block "afterloop"))) := by
  have stepped : blocksStep step = blocks (step.getD (.number .one)) := by
    cases step with
    | none => simp [blocksStep, blocks]
    | some step => simp [blocksStep]
  simp only [blocks, blocksAll, stepped, andThen_none, andThen_assoc]

private theorem blocksBindings_eq (bindings : List (String × Expr)) :
    blocksBindings bindings = blocksAll (bindings.map Prod.snd) := by
  induction bindings with
  | nil => simp [blocksBindings, blocksAll]
  | cons binding bindings ih => simp [blocksBindings, blocksAll, ih]

private theorem inside_blocksAll {exprs : List Expr} {e : Expr} (member : e ∈ exprs) :
    e.blocks.Inside (blocksAll exprs) := by
  induction exprs with
  | nil => contradiction
  | cons first others ih =>
    simp only [blocksAll]
    rcases List.mem_cons.mp member with rfl | later
    · exact inside_andThen_left _ _
    · exact (ih later).trans (inside_andThen_right _ _)

private theorem inside_of_mem_children {part whole : Expr} (member : part ∈ whole.children) :
    part.blocks.Inside whole.blocks := by
  cases whole with
  | number | var | declaration | definition => contradiction
  | binary op lhs rhs =>
    rw [blocks_binary]
    exact inside_blocksAll member
  | unary op operand =>
    rw [List.mem_singleton.mp member, blocks]
    exact inside_refl _
  | cond test yes no =>
    rw [blocks]
    obtain rfl | rfl | rfl : part = test ∨ part = yes ∨ part = no := by simpa [children] using member
    · exact inside_andThen_left _ _
    · exact (inside_condition_yes _ _).trans (inside_andThen_right _ _)
    · exact (inside_condition_no _ _).trans (inside_andThen_right _ _)
  | loop name start stop step body =>
    have place : part ∈ [start] ∨ part ∈ [body, step.getD (.number .one), stop] := by
      cases step <;> grind [children]
    rw [blocks_loop]
    rcases place with first | round
    · exact (inside_blocksAll first).trans (inside_andThen_left _ _)
    · have inner := (inside_blocksAll round).trans (inside_andThen_left _ (.block "afterloop"))
      exact (inner.trans (inside_andThen_right (.block "loop") _)).trans (inside_andThen_right _ _)
  | call callee args =>
    rw [blocks]
    exact inside_blocksAll member
  | bind bindings body =>
    rw [blocks, blocksBindings_eq]
    rcases List.mem_cons.mp member with rfl | bound
    · exact inside_andThen_right _ _
    · exact (inside_blocksAll bound).trans (inside_andThen_left _ _)

/-- What stands in an expression has its blocks together in the layout. -/
theorem Within.inside {e whole : Expr} (within : e.Within whole) : e.blocks.Inside whole.blocks := by
  induction within with
  | self => exact inside_refl _
  | deeper _ member ih => exact ih.trans (inside_of_mem_children member)

end Expr

namespace Flow

namespace Function

/-- The layout with the names of the blocks. -/
def namedLayout (f : Function) : List (Nat × String) :=
  f.layout.map fun id => (id, ((f.block? id).map Block.name).getD "")

/-- The slots that the entry starts with. -/
def entrySlots (f : Function) : List Nat := (f.blockInsts 0).takeWhile f.isSlot

variable {f g : Function}

private theorem map_fst_namedLayout (f : Function) : f.namedLayout.map Prod.fst = f.layout := by
  simp [namedLayout, Function.comp_def]

private theorem namedLayout_congr (layout : g.layout = f.layout)
    (names : ∀ id, (g.block? id).map Block.name = (f.block? id).map Block.name) : g.namedLayout = f.namedLayout := by
  simp only [namedLayout, layout, names]

private theorem Arranged.entrySlots_eq (arranged : f.Arranged) {slots : List Nat}
    (split : f.blockInsts 0 = slots ++ f.code 0) : f.entrySlots = slots :=
  List.append_cancel_right (arranged.entry_split.1.symm.trans split)

/-- A function has no slots but those at the top of its entry. -/
theorem Arranged.filter_isSlot (arranged : f.Arranged) : f.liveInsts.filter f.isSlot = f.entrySlots := by
  obtain ⟨rest, layout⟩ : ∃ rest, f.layout = 0 :: rest := List.head?_eq_some_iff.mp arranged.entry
  have unique := arranged.nodup_layout
  rw [layout] at unique
  have others : rest.flatMap (fun block => (f.blockInsts block).filter f.isSlot) = [] := by
    refine List.flatMap_eq_nil_iff.mpr fun block member => List.filter_eq_nil_iff.mpr fun id inside => ?_
    have apart : block ≠ 0 := by
      rintro rfl
      exact (List.nodup_cons.mp unique).1 member
    simp [arranged.slots block apart id inside]
  have slots : (f.blockInsts 0).filter f.isSlot = f.entrySlots := by
    have all : f.entrySlots.filter f.isSlot = f.entrySlots :=
      List.filter_eq_self.mpr (List.all_eq_true.mp List.all_takeWhile)
    have none : (f.code 0).filter f.isSlot = [] :=
      List.filter_eq_nil_iff.mpr fun id member => by simpa using (List.mem_filter.mp member).2
    rw [arranged.entry_split.1, List.filter_append, none, List.append_nil]
    exact all
  rw [liveInsts, layout, List.filter_flatMap, List.flatMap_cons, others, List.append_nil, slots]

private theorem namedLayout_addInst (f : Function) (block : Nat) (inst : Inst) :
    (f.addInst block inst).2.namedLayout = f.namedLayout :=
  namedLayout_congr rfl fun id =>
    blockName_modify block id (fun b => { b with insts := b.insts ++ [f.insts.size] }) (fun _ => rfl) f.blocks

private theorem namedLayout_addSlotTo (f : Function) (block : Nat) (name : String) :
    (f.addSlotTo block name).2.namedLayout = f.namedLayout :=
  namedLayout_congr rfl fun id =>
    blockName_modify block id (fun b => { b with
      insts := (f.blockInsts block).takeWhile f.isSlot ++ f.insts.size :: (f.blockInsts block).dropWhile f.isSlot })
      (fun _ => rfl) f.blocks

private theorem namedLayout_addBlock (arranged : f.Arranged) (name : String) :
    (f.addBlock name).2.namedLayout = f.namedLayout ++ [(f.blocks.size, name)] := by
  have old : ∀ id ∈ f.layout, (f.addBlock name).2.block? id = f.block? id := by
    intro id member
    have inside : id < f.blocks.size := List.mem_range.mp (arranged.layout.mem_iff.mp member)
    simp [addBlock, block?, Array.getElem?_push, Nat.ne_of_lt inside]
  have new : (f.addBlock name).2.block? f.blocks.size = some ⟨name, []⟩ := by
    simp [addBlock, block?]
  show (f.layout ++ [f.blocks.size]).map _ = _
  rw [List.map_append, List.map_singleton, new]
  exact congrArg (· ++ _) (List.map_congr_left fun id member => by rw [old id member])

private theorem Arranged.entrySlots_addInst (arranged : f.Arranged) {block : Nat} (inside : block < f.blocks.size)
    {instr : Instr} (plain : instr.isSlot = false) (name : String) :
    (f.addInst block ⟨instr, name⟩).2.entrySlots = f.entrySlots := by
  refine (arranged.addInst inside plain).entrySlots_eq ?_
  rw [blockInsts_addInst f block 0 _ inside, arranged.code_addInst inside plain]
  by_cases entry : 0 = block
  · subst entry
    rw [if_pos rfl, if_pos rfl, ← List.append_assoc]
    exact congrArg (· ++ [f.insts.size]) arranged.entry_split.1
  · rw [if_neg entry, if_neg entry]
    exact arranged.entry_split.1

private theorem Arranged.entrySlots_addSlotTo (arranged : f.Arranged) (name : String) :
    (f.addSlotTo 0 name).2.entrySlots = f.entrySlots ++ [f.insts.size] := by
  have added : (f.addSlotTo 0 name).2.Arranged := arranged.addSlot_eq name ▸ arranged.addSlot
  refine added.entrySlots_eq ?_
  rw [blockInsts_addSlotTo f 0 0 name arranged.nonempty, if_pos rfl, arranged.code_addSlotTo, arranged.entry_split.2,
    List.append_assoc]
  rfl

/-- Blocks other than one stay in their order without it. -/
theorem filter_named {before after : List (Nat × String)} {block : Nat} {name : String}
    (unique : ((before ++ (block, name) :: after).map Prod.fst).Nodup) :
    (before ++ (block, name) :: after).filter (·.1 != block) = before ++ after := by
  rw [List.map_append, List.map_cons] at unique
  obtain ⟨_, there, apart⟩ := List.nodup_append.mp unique
  have early : ∀ entry ∈ before, (entry.1 != block) = true := by
    intro entry member
    simpa using apart entry.1 (List.mem_map_of_mem member) block List.mem_cons_self
  have late : ∀ entry ∈ after, (entry.1 != block) = true := by
    intro entry member
    have behind : entry.1 ∈ after.map Prod.fst := List.mem_map_of_mem member
    have other : entry.1 ≠ block := fun same => (List.nodup_cons.mp there).1 (same ▸ behind)
    simpa using other
  rw [List.filter_append, List.filter_cons_of_neg (by simp), List.filter_eq_self.mpr early,
    List.filter_eq_self.mpr late]

/-- A block that is put last leaves its place to the blocks behind it. -/
theorem namedLayout_moveToEnd (arranged : f.Arranged) {before after : List (Nat × String)} {block : Nat} {name : String}
    (split : f.namedLayout = before ++ (block, name) :: after) :
    (f.moveToEnd block).namedLayout = before ++ after ++ [(block, name)] := by
  have unique := arranged.nodup_layout
  rw [← map_fst_namedLayout, split] at unique
  have moved : (f.moveToEnd block).namedLayout =
      f.namedLayout.filter (·.1 != block) ++ [(block, ((f.block? block).map Block.name).getD "")] := by
    show (f.layout.filter (· != block) ++ [block]).map _ = _
    rw [List.map_append, namedLayout, List.filter_map]
    rfl
  obtain ⟨id, _, same⟩ : ∃ id ∈ f.layout, (id, ((f.block? id).map Block.name).getD "") = (block, name) :=
    List.mem_map.mp (by rw [← namedLayout, split]; simp)
  cases same
  rw [moved, split, filter_named unique]

end Function

namespace Site

/-- An insertion point in one of the blocks of a function. -/
structure Placed (site : Site) : Prop where
  arranged : site.func.Arranged
  here : site.block < site.nextBlock

/-- Building from `s` to `t` adds blocks at the end of the layout and keeps slots in the order they are made in. -/
structure Lays (s : Site) (added : List (Nat × String)) (t : Site) : Prop extends t.Placed where
  layout : t.func.namedLayout = s.func.namedLayout ++ added
  blocks : t.nextBlock = s.nextBlock + added.length
  slots : s.func.entrySlots.Pairwise (· < ·) → t.func.entrySlots.Pairwise (· < ·)

variable {s t u : Site} {added more : List (Nat × String)}

private theorem Placed.lays (placed : s.Placed) : s.Lays [] s :=
  ⟨placed, (List.append_nil _).symm, rfl, id⟩

theorem Lays.trans (first : s.Lays added t) (second : t.Lays more u) : s.Lays (added ++ more) u where
  toPlaced := second.toPlaced
  layout := by rw [second.layout, first.layout, List.append_assoc]
  blocks := by rw [second.blocks, first.blocks, List.length_append, Nat.add_assoc]
  slots := fun ascending => second.slots (first.slots ascending)

theorem Lays.andThen {p q : Plan} (first : s.Lays (p s.nextBlock) t) (second : t.Lays (q t.nextBlock) u) :
    s.Lays (p.andThen q s.nextBlock) u := by
  have both := first.trans second
  rw [first.blocks] at both
  exact both

theorem Lays.push (lays : s.Lays added t) (instr : Instr) (plain : instr.isSlot = false) (name : String) :
    s.Lays added (t.push instr name) where
  arranged := lays.arranged.addInst lays.here plain
  here := by simpa using lays.here
  layout := by
    rw [← lays.layout]
    exact t.func.namedLayout_addInst t.block ⟨instr, name⟩
  blocks := by rw [push_nextBlock, lays.blocks]
  slots := fun ascending => by
    have same := lays.arranged.entrySlots_addInst lays.here plain name
    exact same ▸ lays.slots ascending

theorem Lays.addSlot (lays : s.Lays added t) (name : String) : s.Lays added (t.addSlot name) where
  arranged := lays.arranged.addSlot
  here := by
    rw [nextBlock, addSlot_blocks_size lays.arranged]
    exact lays.here
  layout := by
    rw [← lays.layout, addSlot_func lays.arranged]
    exact t.func.namedLayout_addSlotTo 0 name
  blocks := by
    rw [nextBlock, addSlot_blocks_size lays.arranged]
    exact lays.blocks
  slots := fun ascending => by
    rw [addSlot_func lays.arranged, lays.arranged.entrySlots_addSlotTo]
    refine List.pairwise_append.mpr ⟨lays.slots ascending, List.pairwise_singleton _ _, fun id member new last => ?_⟩
    rw [List.mem_singleton.mp last]
    exact lays.arranged.inRange 0 id (List.takeWhile_subset _ member)

theorem Lays.addBlock (lays : s.Lays added t) (name : String) :
    s.Lays (added ++ [(t.nextBlock, name)]) (t.addBlock name) where
  arranged := lays.arranged.addBlock
  here := by
    rw [addBlock_block, addBlock_nextBlock]
    exact Nat.lt_succ_of_lt lays.here
  layout := by
    rw [← List.append_assoc, ← lays.layout]
    exact Function.namedLayout_addBlock lays.arranged name
  blocks := by rw [addBlock_nextBlock, lays.blocks, List.length_append, List.length_singleton, Nat.add_assoc]
  slots := fun ascending => by
    have same : (t.addBlock name).func.entrySlots = t.func.entrySlots :=
      congrArg (List.takeWhile t.func.isSlot) (Function.blockInsts_addBlock t.func 0 name)
    rw [same]
    exact lays.slots ascending

theorem Lays.goto (lays : s.Lays added t) {block : Nat} (inside : block < t.nextBlock) : s.Lays added (t.goto block) :=
  ⟨⟨lays.arranged, inside⟩, lays.layout, lays.blocks, lays.slots⟩

/-- Building goes on in one of the blocks that were added, which is put behind the others. -/
theorem Lays.resume {before after : List (Nat × String)} {block : Nat} {name : String}
    (lays : s.Lays (before ++ (block, name) :: after) t) (notFirst : block ≠ 0) :
    s.Lays (before ++ after ++ [(block, name)]) ((t.moveToEnd block).goto block) := by
  have split : t.func.namedLayout = s.func.namedLayout ++ before ++ (block, name) :: after := by
    rw [lays.layout, List.append_assoc]
  have inside : block < t.nextBlock := by
    refine List.mem_range.mp (lays.arranged.layout.mem_iff.mp ?_)
    rw [← Function.map_fst_namedLayout, split]
    simp
  refine ⟨⟨lays.arranged.moveToEnd inside notFirst, inside⟩, ?_, ?_, lays.slots⟩
  · refine (Function.namedLayout_moveToEnd lays.arranged split).trans ?_
    simp only [List.append_assoc]
  · refine lays.blocks.trans ?_
    simp only [List.length_append, List.length_cons, List.length_nil]
    omega

theorem Lays.newVariable (lays : s.Lays added t) (name : String) (value : Operand) :
    s.Lays added (t.newVariable name value) :=
  (lays.addSlot name).push _ rfl ""

theorem Lays.advance (lays : s.Lays added t) (name : String) (slot stride : Operand) :
    s.Lays added (t.advance name slot stride) :=
  ((lays.push _ rfl name).push _ rfl "nextvar").push _ rfl ""

theorem Lays.arith (lays : s.Lays added t) (op : Arith) (lhs rhs : Operand) (name : String) :
    s.Lays added (t.arith op lhs rhs name).2 := by
  rcases t.arith_cases op lhs rhs name with ⟨_, _, _, _, folded⟩ | emitted
  · rw [folded]
    exact lays
  · rw [emitted]
    exact lays.push _ rfl name

/-- A loop goes on in the block that it adds, and the code behind it in another one. -/
theorem Placed.enterLoop (placed : s.Placed) (first slot : Operand) :
    s.Lays (Plan.block "loop" s.nextBlock) (s.enterLoop first slot) := by
  have made := ((placed.lays.push (.store first slot) rfl "").addBlock "loop").push (.jump s.nextBlock) rfl ""
  rw [push_nextBlock] at made
  exact made.goto (by simp)

theorem Placed.leaveLoop (placed : s.Placed) (value : Operand) (top : Nat) :
    s.Lays (Plan.block "afterloop" s.nextBlock) (s.leaveLoop value top) := by
  have tested := placed.lays.push (.compare .differ value (.const .zero)) rfl "loopcond"
  have made := (tested.addBlock "afterloop").push (.branch s.next top s.nextBlock) rfl ""
  rw [push_nextBlock] at made
  exact made.goto (by simp)

/-- The blocks of a condition are made together. -/
theorem Placed.fork (placed : s.Placed) (value : Operand) :
    s.Lays [(s.nextBlock, "then"), (s.nextBlock + 1, "else"), (s.nextBlock + 2, "ifcont")] (s.fork value) := by
  have slot := (placed.lays.push (.compare .differ value (.const .zero)) rfl "ifcond").addSlot "iftmp"
  have made := (((slot.addBlock "then").addBlock "else").addBlock "ifcont").push
    (.branch s.next (s.forkBlock value) (s.forkBlock value + 1)) rfl ""
  simp only [addBlock_nextBlock, slot.blocks, List.length_nil, Nat.add_zero] at made
  have inside : s.forkBlock value < (s.forkBlocks value).nextBlock := by
    simp only [forkBlocks, forkBlock, addBlock_nextBlock]
    omega
  exact made.goto (by rwa [push_nextBlock])

theorem Lays.endBranch {before after : List (Nat × String)} {next : Nat} {name : String}
    (lays : s.Lays (before ++ (next, name) :: after) t) (notFirst : next ≠ 0) (value slot : Operand) (dest : Nat) :
    s.Lays (before ++ after ++ [(next, name)]) (t.endBranch value slot dest next) :=
  ((lays.push (.store value slot) rfl "").push (.jump dest) rfl "").resume notFirst

variable {value : Operand} {p q : Plan}

/-- Once the first branch is there, the block for the second one goes behind it. -/
theorem Placed.otherwise (placed : s.Placed) (runs : (s.fork value).Lays (p (s.fork value).nextBlock) t)
    (result : Operand) :
    s.Lays ([(s.nextBlock, "then")] ++ ((s.nextBlock + 2, "ifcont") :: p (s.nextBlock + 3)) ++
      [(s.nextBlock + 1, "else")]) (s.otherwise value t result) := by
  have forked := placed.fork value
  -- All three blocks are there, and those of the branch have gone behind them.
  have ran : s.Lays ([(s.nextBlock, "then")] ++ (s.nextBlock + 1, "else") :: (s.nextBlock + 2, "ifcont") ::
      p (s.nextBlock + 3)) t := by
    have ran := forked.trans runs
    rwa [forked.blocks] at ran
  rw [Site.otherwise, forkBlock_eq placed.arranged placed.here]
  exact ran.endBranch (Nat.succ_ne_zero _) _ _ _

/-- Once both branches are there, the block where they meet goes behind them. -/
theorem Placed.meet (placed : s.Placed) (runs : (s.fork value).Lays (p (s.fork value).nextBlock) t) {result : Operand}
    (runs' : (s.otherwise value t result).Lays (q (s.otherwise value t result).nextBlock) u) (result' : Operand) :
    s.Lays (Plan.condition p q s.nextBlock) (s.meet value u result') := by
  have other := placed.otherwise runs result
  have blocks : (s.otherwise value t result).nextBlock = s.nextBlock + 3 + (p (s.nextBlock + 3)).length := by
    rw [other.blocks]
    simp only [List.length_append, List.length_cons, List.length_nil]
    omega
  -- The block where the branches meet still stands in front of the first one's blocks.
  have ran : s.Lays ([(s.nextBlock, "then")] ++ (s.nextBlock + 2, "ifcont") ::
      (p (s.nextBlock + 3) ++ (s.nextBlock + 1, "else") :: q (s.nextBlock + 3 + (p (s.nextBlock + 3)).length))) u := by
    have ran := other.trans runs'
    rw [blocks] at ran
    simpa only [List.append_assoc, List.cons_append, List.nil_append] using ran
  have met := ran.endBranch (Nat.succ_ne_zero _) result' (s.forkSlot value) (s.nextBlock + 2)
  rw [Site.meet, forkBlock_eq placed.arranged placed.here, Plan.condition]
  simpa only [List.append_assoc, List.cons_append, List.nil_append] using met

theorem Lays.bindParams (names : List String) (index : Nat) (scope : Scope) (lays : s.Lays added t) :
    s.Lays added (t.bindParams names index scope).1 := by
  induction names generalizing index t scope with
  | nil => exact lays
  | cons name names ih => exact ih (index + 1) ((name, t.next) :: scope) (lays.newVariable name (.param index))

private theorem placed_opened (name : String) (params : List String) : (opened name params).Placed :=
  ⟨(opened_draft name params).shape.arranged, (opened_draft name params).shape.here⟩

end Site

end Flow

open Flow.Site Kaleidoscope.Expr

variable {m : Module} {scope : Scope} {exprs : List Expr} {s t : Site} {values : List Operand}

/-- Whatever expressions are lowered to, their blocks are those planned for them. -/
theorem Lowers.lays (code : Lowers m scope exprs s values t) : s.Placed → s.Lays (blocksAll exprs s.nextBlock) t := by
  induction code with
  | nil =>
    intro placed
    rw [blocksAll]
    exact placed.lays
  | cons first others ih ih' =>
    intro placed
    have start := ih placed
    rw [blocksAll_cons]
    exact start.andThen (ih' start.toPlaced)
  | number =>
    intro placed
    rw [blocksAll_one, blocks]
    exact placed.lays
  | var bound =>
    intro placed
    rw [blocksAll_one, blocks]
    exact placed.lays.push _ rfl _
  | assign value bound ih =>
    intro placed
    rw [blocksAll_one, blocks_binary, blocksAll_cons, blocksAll_one, blocks, Plan.none_andThen]
    exact (ih placed).push _ rfl ""
  | arith known operands ih =>
    intro placed
    rw [blocksAll_one, blocks_binary]
    exact (ih placed).arith _ _ _ _
  | less operands ih =>
    intro placed
    rw [blocksAll_one, blocks_binary]
    exact ((ih placed).push _ rfl "cmptmp").push _ rfl "booltmp"
  | binary user operands found ih =>
    intro placed
    rw [blocksAll_one, blocks_binary]
    exact (ih placed).push _ rfl "binop"
  | unary value found ih =>
    intro placed
    rw [blocksAll_one, blocks, ← blocksAll_one]
    exact (ih placed).push _ rfl "unop"
  | call found count values ih =>
    intro placed
    rw [blocksAll_one, blocks]
    exact (ih placed).push _ rfl "calltmp"
  | @cond scope test yes no s t u w v a b tested first second ih ih' ih'' =>
    intro placed
    have asks := ih placed
    have runs := ih' (asks.fork v).toPlaced
    have runs' := ih'' (asks.otherwise runs a).toPlaced
    rw [blocksAll_one, blocks, ← blocksAll_one, ← blocksAll_one yes, ← blocksAll_one no]
    exact (asks.andThen (asks.meet runs runs' b)).push _ rfl "iftmp"
  | @loop scope name start stop body step s t u first value stride ignored started round ih ih' =>
    intro placed
    have slot := placed.lays.addSlot name
    have starts := ih slot.toPlaced
    have entered := starts.enterLoop first s.next
    have runs := ih' entered.toPlaced
    have advances := runs.advance name s.next stride
    have leaves := advances.leaveLoop value t.nextBlock
    have whole := starts.andThen (entered.andThen (advances.andThen leaves))
    have first : (s.addSlot name).nextBlock = s.nextBlock := slot.blocks
    rw [blocksAll_one, blocks_loop, ← first]
    exact slot.trans whole
  | bindNone value ih =>
    intro placed
    rw [blocksAll_one, blocks, blocksBindings, Plan.none_andThen, ← blocksAll_one]
    exact ih placed
  | @bindOne scope name init body bindings s t u v w value others ih ih' =>
    intro placed
    have starts := (ih placed).newVariable name v
    have whole := starts.andThen (ih' starts.toPlaced)
    have same : blocksAll [.bind ((name, init) :: bindings) body] =
        (blocksAll [init]).andThen (blocksAll [.bind bindings body]) := by
      simp only [blocksAll_one, blocks, blocksBindings, Plan.andThen_assoc]
    rw [same]
    exact whole

namespace Flow.Function

/-- A function that is laid out like the expression it computes. -/
structure SourceOrder (f : Function) (body : Expr) : Prop where
  code : (f.liveInsts.filter (!f.isSlot ·)).Pairwise (· < ·)
  entry : f.entry? = some 0
  slots : f.liveInsts.filter f.isSlot = f.entrySlots
  ascending : f.entrySlots.Pairwise (· < ·)
  layout : f.namedLayout = (0, "entry") :: body.blocks 1
  /-- Wherever there is a condition, its blocks stand together. -/
  conditions : ∀ test yes no, (Expr.cond test yes no).Within body →
    ∃ fork, Plan.condition yes.blocks no.blocks fork <:+: f.namedLayout

end Flow.Function

private theorem Lowering.Attempt.sourceOrder {c : Context} {proto : Prototype} {body : Expr}
    (attempt : Attempt c proto body)
    {value : Operand} (done : attempt.result = .ok value) : (attempt.function value).SourceOrder body := by
  have placed := placed_opened attempt.name attempt.params
  have bound := placed.lays.bindParams proto.params 0 []
  rw [attempt.opens] at bound
  have first : attempt.start.nextBlock = 1 := bound.blocks
  have code := (attempt.lowers done).lays bound.toPlaced
  rw [blocksAll_one, first] at code
  have whole := bound.trans (code.push (.ret value) rfl "")
  have layout : (attempt.function value).namedLayout = (0, "entry") :: body.blocks 1 := whole.layout
  have arranged := attempt.arranged done
  refine ⟨?_, arranged.entry, arranged.filter_isSlot, whole.slots .nil, layout, fun test yes no within => ?_⟩
  · rw [← Function.liveCode_eq_filter]
    exact (attempt.chronological done).ascending
  · obtain ⟨start, inside⟩ := within.inside 1
    rw [blocks] at inside
    have own := (List.suffix_append _ _).isInfix.trans inside
    exact ⟨_, layout ▸ own.trans (List.suffix_cons _ _).isInfix⟩

namespace Form

/-- Without passes, the function of a definition is laid out as its body is written. -/
theorem laid_out_in_source_order {allowed : Form → Prop} {c : Context} (reachable : c.Reachable [] allowed)
    (proto : Prototype) (body : Expr) (table : PrecedenceTable) {id : Nat}
    (done : ((definition proto body).lower c table).result = .ok id) :
    ∃ f, ((definition proto body).lower c table).context.builder.module.function? id = some f ∧
      f.SourceOrder body := by
  obtain ⟨attempt, value, result, found⟩ := Context.function?_definition reachable.sound done
  rw [reachable.passes_eq] at found
  exact ⟨attempt.function value, found, attempt.sourceOrder result⟩

/-- `def f(x) if x then (if x then 1 else 0) else x` -/
theorem laid_out_nested_condition : ∃ f,
    ((definition ⟨"f", ["x"], .function, 30⟩
        (.cond (.var "x") (.cond (.var "x") (.number .one) (.number .zero)) (.var "x"))).lower
      (.new (.new "m" [])) .standard).context.builder.module.function? 0 = some f ∧
      f.namedLayout = [(0, "entry"), (1, "then"), (4, "then"), (5, "else"), (6, "ifcont"), (2, "else"),
        (3, "ifcont")] := by
  have reachable : Context.Reachable [] (fun _ => True) (.new (.new "m" [])) := .new "m"
  have done : ((definition ⟨"f", ["x"], .function, 30⟩
      (.cond (.var "x") (.cond (.var "x") (.number .one) (.number .zero)) (.var "x"))).lower
    (.new (.new "m" [])) .standard).result.toOption = some 0 := by decide +kernel
  obtain ⟨f, found, ordered⟩ := laid_out_in_source_order reachable ⟨"f", ["x"], .function, 30⟩
    (.cond (.var "x") (.cond (.var "x") (.number .one) (.number .zero)) (.var "x")) .standard (ok_of_toOption done)
  exact ⟨f, found, ordered.layout.trans (by decide)⟩

end Form

end Kaleidoscope
