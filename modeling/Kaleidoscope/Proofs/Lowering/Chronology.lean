import Kaleidoscope.Proofs.Flow.Order
import Kaleidoscope.Proofs.Lowering.Confined
import Kaleidoscope.Proofs.Lowering.Finished
import Mathlib.Data.List.Basic

/-!
Functions keep the order in which they were built. Instructions use only what was made before them, and the code read
through the layout, without the slots, comes in the order in which it was made.
-/

namespace Kaleidoscope

open Kaleidoscope.Flow

namespace Flow

namespace Function

/-- The live instructions other than slots, in layout order. -/
def liveCode (f : Function) : List Nat := f.layout.flatMap f.code

/-- A function whose instructions stand in the order in which they were made. -/
structure Chronological (f : Function) : Prop where
  backward : ∀ id source, .inst source ∈ f.operandsOf id → source < id
  ascending : f.liveCode.Pairwise (· < ·)

variable {f : Function}

theorem liveCode_eq_filter (f : Function) : f.liveCode = f.liveInsts.filter (!f.isSlot ·) := by
  rw [liveInsts, List.filter_flatMap]
  rfl

private theorem Arranged.lt_of_mem_liveCode (arranged : f.Arranged) {id : Nat} (member : id ∈ f.liveCode) :
    id < f.insts.size := by
  obtain ⟨block, _, inside⟩ := List.mem_flatMap.mp member
  exact arranged.inRange block id (List.mem_filter.mp inside).1

theorem Arranged.nodup_layout (arranged : f.Arranged) : f.layout.Nodup :=
  arranged.layout.nodup_iff.mpr List.nodup_range

/-- A block without code can stand anywhere in the layout. -/
theorem liveCode_moveToEnd {block : Nat} (empty : f.code block = []) : (f.moveToEnd block).liveCode = f.liveCode := by
  have others : ∀ layout : List Nat, (layout.filter (· != block)).flatMap f.code = layout.flatMap f.code := by
    intro layout
    induction layout with
    | nil => rfl
    | cons first layout ih =>
      by_cases same : first = block
      · simp [same, empty, ih]
      · simp [same, ih]
  show (f.layout.filter (· != block) ++ [block]).flatMap f.code = _
  rw [List.flatMap_append, others, List.flatMap_singleton, empty, List.append_nil]
  rfl

end Function

namespace Site

/-- What is built next comes last: no block behind the insertion point has code. -/
structure InOrder (site : Site) : Prop extends site.func.Chronological where
  ahead : ∃ before after, site.func.layout = before ++ site.block :: after ∧
    ∀ block ∈ after, site.func.code block = []

/-- Building went on in the same block from `s` to `t`, in order. -/
structure Continues (s t : Site) : Prop extends s.Stays t where
  inOrder : s.InOrder → t.InOrder

variable {s t u : Site} {instr : Instr} {name : String} {value slot : Operand}

theorem Continues.trans (first : s.Continues t) (second : t.Continues u) : s.Continues u :=
  ⟨first.toStays.trans second.toStays, fun inOrder => second.inOrder (first.inOrder inOrder)⟩

private theorem older_const (s : Site) (value : Double) : s.Older (.const value) := (near_const s value).older

theorem Older.grows (older : s.Older value) (grows : s.func.Grows t.func) : t.Older value :=
  fun id same => Nat.lt_of_lt_of_le (older id same) grows.insts

private theorem Ready.slot_older {scope : Scope} (ready : s.Ready scope) (bound : scope.lookup name = some slot) :
    s.Older slot :=
  ready.older slot (List.mem_map.mpr ⟨_, Scope.mem_of_lookup bound, rfl⟩)

/-- The operands of a new instruction were there before it. -/
theorem backward_of_adds {block : Nat} (adds : s.func.Adds block instr t.func)
    (older : ∀ operand ∈ instr.operands, s.Older operand)
    (backward : ∀ id source, .inst source ∈ s.func.operandsOf id → source < id) :
    ∀ id source, .inst source ∈ t.func.operandsOf id → source < id := by
  intro id source used
  by_cases new : id = s.func.insts.size
  · subst new
    rw [adds.operandsOf_new] at used
    exact older _ used source rfl
  · simp only [Function.operandsOf, adds.instrs, if_neg new] at used
    exact backward id source used

/-- A new instruction goes to its own block, and the blocks behind it stay without code. -/
theorem InOrder.code_push (inOrder : s.InOrder) (tidy : s.Tidy) (plain : instr.isSlot = false) (name : String) :
    ∃ before after, s.func.layout = before ++ s.block :: after ∧
      (∀ block ∈ before, (s.push instr name).func.code block = s.func.code block) ∧
      (s.push instr name).func.code s.block = s.func.code s.block ++ [s.func.insts.size] ∧
      ∀ block ∈ after, s.func.code block = [] ∧ (s.push instr name).func.code block = [] := by
  obtain ⟨before, after, layout, empty⟩ := inOrder.ahead
  have code (block : Nat) : (s.push instr name).func.code block =
      if block = s.block then s.func.code s.block ++ [s.func.insts.size] else s.func.code block :=
    tidy.arranged.code_addInst tidy.here plain name block
  have unique := tidy.arranged.nodup_layout
  rw [layout] at unique
  obtain ⟨_, there, apart⟩ := List.nodup_append.mp unique
  refine ⟨before, after, layout, fun block member => ?_, ?_, fun block member => ⟨empty block member, ?_⟩⟩
  · rw [code, if_neg (apart block member s.block List.mem_cons_self)]
  · rw [code, if_pos rfl]
  · have other : block ≠ s.block := by
      rintro rfl
      exact (List.nodup_cons.mp there).1 member
    rw [code, if_neg other, empty block member]

/-- A new instruction stands behind all the others. -/
theorem InOrder.liveCode_push (inOrder : s.InOrder) (tidy : s.Tidy) (plain : instr.isSlot = false) (name : String) :
    (s.push instr name).func.liveCode = s.func.liveCode ++ [s.func.insts.size] := by
  obtain ⟨before, after, layout, early, here, late⟩ := inOrder.code_push tidy plain name
  have same : (s.push instr name).func.layout = before ++ s.block :: after := layout
  have none := List.flatMap_eq_nil_iff.mpr fun block member => (late block member).1
  have none' := List.flatMap_eq_nil_iff.mpr fun block member => (late block member).2
  rw [Function.liveCode, Function.liveCode, same, layout]
  simp only [List.flatMap_append, List.flatMap_cons, List.flatMap_congr early, here, none, none', List.append_nil,
    List.append_assoc]

theorem InOrder.push (inOrder : s.InOrder) (tidy : s.Tidy) (instr : Instr) (plain : instr.isSlot = false)
    (older : ∀ operand ∈ instr.operands, s.Older operand) (name : String) : (s.push instr name).InOrder := by
  refine ⟨⟨backward_of_adds (adds_push tidy instr name) older inOrder.backward, ?_⟩, ?_⟩
  · rw [inOrder.liveCode_push tidy plain]
    refine List.pairwise_append.mpr ⟨inOrder.ascending, List.pairwise_singleton _ _, fun id member new last => ?_⟩
    rw [List.mem_singleton.mp last]
    exact tidy.arranged.lt_of_mem_liveCode member
  · obtain ⟨before, after, layout, _, _, late⟩ := inOrder.code_push tidy plain name
    exact ⟨before, after, layout, fun block member => (late block member).2⟩

private theorem continues_push (tidy : s.Tidy) (instr : Instr) (plain : instr.isSlot = false)
    (older : ∀ operand ∈ instr.operands, s.Older operand) (name : String) : s.Continues (s.push instr name) :=
  ⟨stays_push tidy instr plain older name, fun inOrder => inOrder.push tidy instr plain older name⟩

private theorem continues_addSlot (tidy : s.Tidy) (name : String) : s.Continues (s.addSlot name) := by
  refine ⟨(quiet_addSlot tidy name).toStays, fun inOrder => ?_⟩
  have adds := adds_addSlot tidy name
  have code (block : Nat) : (s.addSlot name).func.code block = s.func.code block := by
    rw [addSlot_func tidy.arranged, tidy.arranged.code_addSlotTo]
  refine ⟨⟨backward_of_adds adds (List.forall_mem_nil _) inOrder.backward, ?_⟩, ?_⟩
  · rw [Function.liveCode, adds.layout, funext code]
    exact inOrder.ascending
  · obtain ⟨before, after, layout, empty⟩ := inOrder.ahead
    exact ⟨before, after, adds.layout.trans layout, fun block member => (code block).trans (empty block member)⟩

private theorem code_addBlock (s : Site) (name : String) (block : Nat) :
    (s.addBlock name).func.code block = s.func.code block :=
  congrArg (List.filter (!s.func.isSlot ·)) (Function.blockInsts_addBlock s.func block name)

private theorem continues_addBlock (tidy : s.Tidy) (name : String) : s.Continues (s.addBlock name) := by
  refine ⟨(quiet_addBlock tidy name).toStays, fun inOrder => ?_⟩
  have empty : s.func.code s.nextBlock = [] :=
    congrArg (List.filter (!s.func.isSlot ·)) (Function.blockInsts_eq_nil _ _ (Nat.le_refl _))
  refine ⟨⟨inOrder.backward, ?_⟩, ?_⟩
  · show ((s.func.layout ++ [s.nextBlock]).flatMap (s.addBlock name).func.code).Pairwise (· < ·)
    rw [funext (code_addBlock s name), List.flatMap_append, List.flatMap_singleton, empty, List.append_nil]
    exact inOrder.ascending
  · obtain ⟨before, after, layout, later⟩ := inOrder.ahead
    refine ⟨before, after ++ [s.nextBlock], ?_, fun block member => ?_⟩
    · show s.func.layout ++ [s.nextBlock] = before ++ s.block :: (after ++ [s.nextBlock])
      rw [layout, List.append_assoc, List.cons_append]
    · rw [code_addBlock]
      rcases List.mem_append.mp member with old | new
      · exact later block old
      · exact List.mem_singleton.mp new ▸ empty

/-- Building may go on in any block behind the current one. -/
theorem InOrder.goto (inOrder : s.InOrder) (tidy : s.Tidy) {block : Nat} {early late : List Nat}
    (layout : s.func.layout = early ++ block :: late) (passed : s.block ∈ early) : (s.goto block).InOrder := by
  refine ⟨inOrder.toChronological, early, late, layout, fun other member => ?_⟩
  obtain ⟨before, after, layout', empty⟩ := inOrder.ahead
  obtain ⟨front, back, same⟩ := List.append_of_mem passed
  have unique := tidy.arranged.nodup_layout
  rw [layout'] at unique layout
  rw [same, List.append_assoc, List.cons_append] at layout
  obtain ⟨_, rest⟩ := Function.position_unique unique layout
  exact empty other (by simp [rest, member])

/-- Building may go on in a block without code once that block has been moved to the end. -/
theorem InOrder.resume (inOrder : s.InOrder) {block : Nat} (empty : s.func.blockInsts block = []) :
    ((s.moveToEnd block).goto block).InOrder := by
  have none : s.func.code block = [] := by rw [Function.code, empty, List.filter_nil]
  refine ⟨⟨inOrder.backward, ?_⟩, s.func.layout.filter (· != block), [], rfl, List.forall_mem_nil _⟩
  show (s.func.moveToEnd block).liveCode.Pairwise (· < ·)
  rw [Function.liveCode_moveToEnd none]
  exact inOrder.ascending

private theorem continues_test (tidy : s.Tidy) (older : s.Older value) (name : String) :
    s.Continues (s.test value name) :=
  continues_push tidy (.compare .differ value (.const .zero)) rfl
    (List.forall_mem_cons.mpr ⟨older, List.forall_mem_singleton.mpr (older_const _ _)⟩) name

private theorem continues_load (tidy : s.Tidy) (place : s.Older slot) (name : String) :
    s.Continues (s.push (.load slot) name) :=
  continues_push tidy (.load slot) rfl (List.forall_mem_singleton.mpr place) name

private theorem continues_store (tidy : s.Tidy) (older : s.Older value) (place : s.Older slot) :
    s.Continues (s.push (.store value slot) "") :=
  continues_push tidy (.store value slot) rfl
    (List.forall_mem_cons.mpr ⟨older, List.forall_mem_singleton.mpr place⟩) ""

private theorem continues_jump (tidy : s.Tidy) (dest : Nat) : s.Continues (s.push (.jump dest) "") :=
  continues_push tidy (.jump dest) rfl (List.forall_mem_nil _) ""

private theorem continues_branch (tidy : s.Tidy) {flag : Operand} (older : s.Older flag) (yes no : Nat) :
    s.Continues (s.push (.branch flag yes no) "") :=
  continues_push tidy (.branch flag yes no) rfl (List.forall_mem_singleton.mpr older) ""

private theorem continues_newVariable (tidy : s.Tidy) (older : s.Older value) (name : String) :
    s.Continues (s.newVariable name value) := by
  have added := continues_addSlot tidy name
  exact added.trans (continues_store added.tidy (added.older older) (near_addSlot tidy name).older)

private theorem continues_arith (tidy : s.Tidy) (op : Arith) {lhs rhs : Operand} (left : s.Older lhs)
    (right : s.Older rhs) (name : String) : s.Continues (s.push (.arith op lhs rhs) name) :=
  continues_push tidy (.arith op lhs rhs) rfl
    (List.forall_mem_cons.mpr ⟨left, List.forall_mem_singleton.mpr right⟩) name

private theorem continues_advance {stride : Operand} (tidy : s.Tidy) (place : s.Older slot) (older : s.Older stride)
    (name : String) : s.Continues (s.advance name slot stride) := by
  have loaded := continues_load tidy place name
  have current := (near_push tidy (.load slot) name).older
  have added := continues_arith loaded.tidy .add current (loaded.older older) "nextvar"
  have sum := (near_push loaded.tidy (.arith .add s.next stride) "nextvar").older
  exact loaded.trans (added.trans (continues_store added.tidy sum (added.older (loaded.older place))))

/-- The first branch of a condition starts right behind the code before it. -/
theorem InOrder.fork (inOrder : s.InOrder) (tidy : s.Tidy) (older : s.Older value) :
    (s.fork value).InOrder ∧ (s.fork value).Older (s.forkSlot value) := by
  have tested := continues_test tidy older "ifcond"
  have slot := continues_addSlot tested.tidy "iftmp"
  have yes := continues_addBlock slot.tidy "then"
  have no := continues_addBlock yes.tidy "else"
  have after := continues_addBlock no.tidy "ifcont"
  have blocks : ((s.test value "ifcond").addSlot "iftmp").Continues (s.forkBlocks value) := yes.trans (no.trans after)
  have flag := blocks.older (slot.older (near_push tidy (.compare .differ value (.const .zero)) "ifcond").older)
  have place := blocks.older (near_addSlot tested.tidy "iftmp").older
  have branched := continues_branch blocks.tidy flag (s.forkBlock value) (s.forkBlock value + 1)
  have whole := (tested.trans (slot.trans blocks)).trans branched
  have layout : (s.forkBlocks value).func.layout = ((s.test value "ifcond").addSlot "iftmp").func.layout ++
      s.forkBlock value :: [s.forkBlock value + 1, s.forkBlock value + 2] := by
    simp [forkBlocks, addBlock, Function.addBlock, forkBlock, nextBlock]
  exact ⟨(whole.inOrder inOrder).goto whole.tidy layout (slot.tidy.mem_layout slot.tidy.here), branched.older place⟩

theorem InOrder.endBranch (inOrder : s.InOrder) (tidy : s.Tidy) (older : s.Older value) (place : s.Older slot)
    {after next : Nat} (empty : (s.endBranch value slot after next).func.blockInsts next = []) :
    (s.endBranch value slot after next).InOrder := by
  have stored := continues_store tidy older place
  have jumped := continues_jump stored.tidy after
  exact ((stored.trans jumped).inOrder inOrder).resume empty

theorem InOrder.enterLoop (inOrder : s.InOrder) (tidy : s.Tidy) (older : s.Older value) (place : s.Older slot) :
    (s.enterLoop value slot).InOrder := by
  have stored := continues_store tidy older place
  have block := continues_addBlock stored.tidy "loop"
  have jumped := continues_jump block.tidy s.nextBlock
  have whole := stored.trans (block.trans jumped)
  have layout : ((s.push (.store value slot) "").addBlock "loop").func.layout = s.func.layout ++ [s.nextBlock] :=
    congrArg (s.func.layout ++ [·]) (push_nextBlock _ _ _)
  exact (whole.inOrder inOrder).goto whole.tidy layout (tidy.mem_layout tidy.here)

theorem InOrder.leaveLoop (inOrder : s.InOrder) (tidy : s.Tidy) (older : s.Older value) (top : Nat) :
    (s.leaveLoop value top).InOrder := by
  have tested := continues_test tidy older "loopcond"
  have block := continues_addBlock tested.tidy "afterloop"
  have flag := block.older (near_push tidy (.compare .differ value (.const .zero)) "loopcond").older
  have branched := continues_branch block.tidy flag top s.nextBlock
  have whole := tested.trans (block.trans branched)
  have layout : ((s.test value "loopcond").addBlock "afterloop").func.layout = s.func.layout ++ [s.nextBlock] :=
    congrArg (s.func.layout ++ [·]) (test_nextBlock _ _ _)
  exact (whole.inOrder inOrder).goto whole.tidy layout (tidy.mem_layout tidy.here)

end Site

end Flow

open Flow.Site

variable {m : Module} {scope : Scope} {exprs : List Expr} {s t : Site} {values : List Operand}

/-- Whatever an expression is lowered to comes behind all that was there. -/
theorem Lowers.inOrder (code : Lowers m scope exprs s values t) : s.Ready scope → s.InOrder → t.InOrder := by
  induction code with
  | nil => exact fun _ inOrder => inOrder
  | cons first others ih ih' =>
    intro ready inOrder
    obtain ⟨ready', _⟩ := first.ready ready
    exact ih' ready' (ih ready inOrder)
  | number => exact fun _ inOrder => inOrder
  | @var scope name slot s bound =>
    intro ready inOrder
    exact (continues_load ready.tidy (ready.slot_older bound) name).inOrder inOrder
  | @assign scope name e slot v s t value bound ih =>
    intro ready inOrder
    obtain ⟨ready', _, older⟩ := value.ready ready
    have stored := continues_store ready'.tidy (older v (List.mem_singleton_self v)) (ready'.slot_older bound)
    exact stored.inOrder (ih ready inOrder)
  | @arith scope symbol op hint lhs rhs s t l r known operands ih =>
    intro ready inOrder
    obtain ⟨ready', _, older⟩ := operands.ready ready
    rcases t.arith_cases op l r hint with ⟨_, _, _, _, folded⟩ | emitted
    · rw [folded]
      exact ih ready inOrder
    · rw [emitted]
      exact (continues_arith ready'.tidy op (older l (by simp)) (older r (by simp)) hint).inOrder (ih ready inOrder)
  | @less scope lhs rhs s t l r operands ih =>
    intro ready inOrder
    obtain ⟨ready', _, older⟩ := operands.ready ready
    have compared := continues_push ready'.tidy (.compare .less l r) rfl older "cmptmp"
    have flag := (near_push ready'.tidy (.compare .less l r) "cmptmp").older
    have turned := continues_push compared.tidy (.toReal t.next) rfl (List.forall_mem_singleton.mpr flag) "booltmp"
    exact (compared.trans turned).inOrder (ih ready inOrder)
  | @binary scope symbol callee lhs rhs s t l r user operands found ih =>
    intro ready inOrder
    obtain ⟨ready', _, older⟩ := operands.ready ready
    exact (ih ready inOrder).push ready'.tidy (.call callee [l, r]) rfl older "binop"
  | @unary scope symbol callee operand s t v value found ih =>
    intro ready inOrder
    obtain ⟨ready', _, older⟩ := value.ready ready
    exact (ih ready inOrder).push ready'.tidy (.call callee [v]) rfl older "unop"
  | @call scope name callee args s t vs found count values ih =>
    intro ready inOrder
    obtain ⟨ready', _, older⟩ := values.ready ready
    exact (ih ready inOrder).push ready'.tidy (.call callee vs) rfl older "calltmp"
  | @cond scope test yes no s t u w v a b tested first second ih ih' ih'' =>
    intro ready inOrder
    have branches := tested.branches first second ready
    obtain ⟨_, _, older⟩ := tested.ready ready
    obtain ⟨_, _, older'⟩ := first.ready branches.forked
    obtain ⟨_, _, older''⟩ := second.ready branches.other
    obtain ⟨forked, place⟩ :=
      (ih ready inOrder).fork branches.tested.tidy (older v (List.mem_singleton_self v))
    have place' := place.grows branches.runs
    have place'' := place'.grows (branches.switches.trans branches.runs')
    have other : (t.otherwise v u a).InOrder := (ih' branches.forked forked).endBranch branches.ended.tidy
      (older' a (List.mem_singleton_self a)) place' branches.noEmpty
    have joined : (t.meet v w b).InOrder := (ih'' branches.other other).endBranch branches.ended'.tidy
      (older'' b (List.mem_singleton_self b)) place'' branches.meetEmpty
    exact (continues_load branches.joined.tidy (place''.grows branches.joins) "iftmp").inOrder joined
  | @loop scope name start stop body step s t u first value stride ignored started round ih ih' =>
    intro ready inOrder
    have rounds := started.rounds round ready
    obtain ⟨_, grows, older⟩ := started.ready (ready.addSlot name)
    obtain ⟨_, _, older'⟩ := round.ready rounds.entered
    have added := continues_addSlot ready.tidy name
    have place : t.Older s.next := (near_addSlot ready.tidy name).older.grows grows
    have entered := (ih (ready.addSlot name) (added.inOrder inOrder)).enterLoop rounds.started.tidy
      (older first (List.mem_singleton_self first)) place
    have advanced := continues_advance rounds.ended.tidy (place.grows (rounds.enters.trans rounds.runs))
      (older' stride (by simp)) name
    exact (advanced.inOrder (ih' rounds.entered entered)).leaveLoop advanced.tidy
      (advanced.older (older' value (by simp))) t.nextBlock
  | bindNone value ih => exact ih
  | @bindOne scope name init body bindings s t u v w value others ih ih' =>
    intro ready inOrder
    obtain ⟨ready', _, older⟩ := value.ready ready
    obtain ⟨begun, _⟩ := value.readyVariable name ready
    have bound := continues_newVariable ready'.tidy (older v (List.mem_singleton_self v)) name
    exact ih' begun (bound.inOrder (ih ready inOrder))

namespace Flow.Site

private theorem inOrder_opened (name : String) (params : List String) : (opened name params).InOrder := by
  have none (block : Nat) : (opened name params).func.code block = [] := by
    rw [Function.code, opened, Function.blockInsts_addBlock]
    rfl
  refine ⟨⟨fun id source used => ?_, ?_⟩, [], [], rfl, List.forall_mem_nil _⟩
  · simp [opened, Function.declared, Function.addBlock, Function.operandsOf, Function.instr?, Function.inst?] at used
  · rw [Function.liveCode, List.flatMap_eq_nil_iff.mpr fun block _ => none block]
    exact .nil

private theorem continues_bindParams (names : List String) (index : Nat) (scope : Scope) (tidy : s.Tidy)
    (inOrder : s.InOrder) : (s.bindParams names index scope).1.InOrder := by
  induction names generalizing index s scope with
  | nil => exact inOrder
  | cons name names ih =>
    have bound := continues_newVariable tidy (near_param s index).older name
    exact ih (index + 1) ((name, s.next) :: scope) bound.tidy (bound.inOrder inOrder)

end Flow.Site

theorem Lowering.Attempt.chronological {c : Context} {proto : Prototype} {body : Expr} (attempt : Attempt c proto body)
    {value : Operand} (done : attempt.result = .ok value) : (attempt.function value).Chronological := by
  obtain ⟨draft, _, slots, _⟩ := attempt.startDraft
  have ready : attempt.start.Ready attempt.scope := ⟨_, _, draft, slots⟩
  have start : attempt.start.InOrder := by
    have opened := continues_bindParams proto.params 0 [] (opened_draft attempt.name attempt.params).tidy
      (inOrder_opened _ _)
    rwa [attempt.opens] at opened
  have code := attempt.lowers done
  obtain ⟨ready', _, older⟩ := code.ready ready
  exact ((code.inOrder ready start).push ready'.tidy (.ret value) rfl older "").toChronological

end Kaleidoscope
