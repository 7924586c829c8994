import Kaleidoscope.Proofs.Machine.Reached
import Kaleidoscope.Proofs.Machine.Refinement
import Kaleidoscope.Proofs.Pass.Kept

/-!
Rewriting a function: operands are exchanged for others, and instructions are left out. If that is done with care,
the function stays well formed, and the new one can stand in for the old one.
-/

namespace Kaleidoscope.Flow.Function

open Kaleidoscope.Machine

/-- `g` is `f` with operands changed and some instructions left out. -/
structure Rewrites (f g : Function) (change : Operand → Operand) (dead : List Nat) : Prop where
  kept : f.Kept g
  instrs : ∀ id, g.instr? id = (f.instr? id).map (Instr.mapOperands change)
  insts : ∀ block, g.blockInsts block = (f.blockInsts block).filter (!dead.contains ·)

/-- An instruction that nobody misses. -/
inductive Idle (f : Function) (id : Nat) : Instr → Prop where
  | pure {instr : Instr} (harmless : instr.isPure = true) (unread : id ∉ f.loadedSlots) : Idle f id instr
  | store {value : Operand} {slot : Nat} (unread : slot ∉ f.loadedSlots) : Idle f id (.store value (.inst slot))

/-- A change of an operand that the instruction `id` of `block` does not notice. -/
structure Unnoticed (f : Function) (change : Operand → Operand) (dead : List Nat) (block id : Nat)
    (input : Operand × Kind) : Prop where
  usable : f.Usable block id (change input.1, input.2)
  place : input.2 = .place → change input.1 = input.1
  alive : ∀ source, change input.1 = .inst source → source ∉ dead
  same : ∀ trail done rest x, f.Reached trail done x → x.block = block → x.rest = id :: rest →
    x.read (change input.1) = x.read input.1

/-- A rewriting that does not change what a function does. -/
structure Careful (f : Function) (change : Operand → Operand) (dead : List Nat) : Prop where
  idle : ∀ id ∈ dead, ∀ instr, f.instr? id = some instr → f.Idle id instr
  unnoticed : ∀ block, ∀ id ∈ f.blockInsts block, id ∉ dead → ∀ input ∈ f.inputsOf id,
    f.Unnoticed change dead block id input

variable {f g : Function} {change : Operand → Operand} {dead : List Nat}

private theorem Idle.no_targets {id : Nat} {instr : Instr} (idle : f.Idle id instr) :
    instr.targets = [] ∧ instr.isTerminator = false := by
  cases idle with
  | pure harmless unread => cases instr <;> first | exact ⟨rfl, rfl⟩ | contradiction
  | store unread => exact ⟨rfl, rfl⟩

theorem mapOperands_id (instr : Instr) : instr.mapOperands (fun operand => operand) = instr := by
  cases instr <;> simp [Instr.mapOperands]

theorem mapOperands_mapOperands (first second : Operand → Operand) (instr : Instr) :
    (instr.mapOperands first).mapOperands second = instr.mapOperands fun operand => second (first operand) := by
  cases instr <;> simp [Instr.mapOperands, Function.comp_def]

namespace Rewrites

theorem refl (f : Function) : f.Rewrites f (fun operand => operand) [] := by
  refine ⟨.refl f, fun id => ?_, fun block => (List.filter_eq_self.mpr fun _ _ => rfl).symm⟩
  cases f.instr? id with
  | none => rfl
  | some instr => exact congrArg some (mapOperands_id instr).symm

theorem trans {h : Function} {further : Operand → Operand} (first : f.Rewrites g change [])
    (second : g.Rewrites h further []) : f.Rewrites h (fun operand => further (change operand)) [] := by
  refine ⟨first.kept.trans second.kept, fun id => ?_, fun block => ?_⟩
  · rw [second.instrs, first.instrs]
    cases f.instr? id with
    | none => rfl
    | some instr => exact congrArg some (mapOperands_mapOperands change further instr)
  · rw [second.insts, first.insts, List.filter_filter]
    simp

theorem isTerminator (rewrites : f.Rewrites g change dead) (id : Nat) : g.isTerminator id = f.isTerminator id := by
  simp only [Function.isTerminator, rewrites.instrs]
  cases f.instr? id with
  | none => rfl
  | some instr => exact instr.isTerminator_mapOperands change

theorem targetsOf (rewrites : f.Rewrites g change dead) (id : Nat) : g.targetsOf id = f.targetsOf id := by
  simp only [Function.targetsOf, rewrites.instrs]
  cases f.instr? id with
  | none => rfl
  | some instr => exact instr.targets_mapOperands change

theorem kindOf? (rewrites : f.Rewrites g change dead) (id : Nat) : g.kindOf? id = f.kindOf? id := by
  simp only [Function.kindOf?, rewrites.instrs]
  cases f.instr? id with
  | none => rfl
  | some instr => exact instr.kind?_mapOperands change

theorem isSlot (rewrites : f.Rewrites g change dead) (id : Nat) : g.isSlot id = f.isSlot id := by
  simp only [Function.isSlot, rewrites.instrs]
  cases f.instr? id with
  | none => rfl
  | some instr => cases instr <;> rfl

theorem inputsOf (rewrites : f.Rewrites g change dead) (id : Nat) :
    g.inputsOf id = (f.inputsOf id).map fun input => (change input.1, input.2) := by
  simp only [Function.inputsOf, rewrites.instrs]
  cases f.instr? id with
  | none => rfl
  | some instr => exact instr.inputs_mapOperands change

theorem entry? (rewrites : f.Rewrites g change dead) : g.entry? = f.entry? :=
  congrArg List.head? rewrites.kept.layout

private theorem mem_blockInsts (rewrites : f.Rewrites g change dead) {block id : Nat} :
    id ∈ g.blockInsts block ↔ id ∈ f.blockInsts block ∧ id ∉ dead := by
  simp [rewrites.insts]

private theorem mem_liveInsts (rewrites : f.Rewrites g change dead) {id : Nat} :
    id ∈ g.liveInsts ↔ id ∈ f.liveInsts ∧ id ∉ dead := by
  simp only [liveInsts, List.mem_flatMap, rewrites.kept.layout, rewrites.mem_blockInsts]
  constructor
  · rintro ⟨block, here, member, alive⟩
    exact ⟨⟨block, here, member⟩, alive⟩
  · rintro ⟨⟨block, here, member⟩, alive⟩
    exact ⟨block, here, member, alive⟩

/-- Leaving out idle instructions does not change the ways through a function. -/
theorem successors (rewrites : f.Rewrites g change dead) (careful : f.Careful change dead) (block next : Nat) :
    next ∈ g.successors block ↔ next ∈ f.successors block := by
  simp only [Function.successors, List.mem_flatMap, rewrites.targetsOf, rewrites.mem_blockInsts]
  constructor
  · rintro ⟨id, ⟨member, _⟩, target⟩
    exact ⟨id, member, target⟩
  · rintro ⟨id, member, target⟩
    refine ⟨id, ⟨member, fun gone => ?_⟩, target⟩
    unfold Function.targetsOf at target
    split at target
    · next instr found =>
      rw [(careful.idle id gone instr found).no_targets.1] at target
      contradiction
    · contradiction

theorem walk (rewrites : f.Rewrites g change dead) (careful : f.Careful change dead) {trail : List Nat}
    (walk : g.Walk trail) : f.Walk trail := by
  induction walk with
  | entry first => exact .entry (rewrites.entry? ▸ first)
  | step _ edge ih => exact .step ih ((rewrites.successors careful _ _).mp edge)

/-- What had been passed before has been passed, unless it has been left out. -/
theorem passed (rewrites : f.Rewrites g change dead) (careful : f.Careful change dead) {source block : Nat}
    {done : List Nat} (alive : source ∉ dead) (passed : f.Passed source block done) :
    g.Passed source block (done.filter (!dead.contains ·)) := by
  intro trail walk
  rcases passed trail (rewrites.walk careful walk) with inside | ⟨above, member, found⟩
  · exact .inl (by simp [inside, alive])
  · exact .inr ⟨above, member, rewrites.mem_blockInsts.mpr ⟨found, alive⟩⟩

theorem usable (rewrites : f.Rewrites g change dead) (careful : f.Careful change dead) {block id : Nat}
    {input : Operand × Kind} (here : id ∉ dead) (alive : ∀ source, input.1 = .inst source → source ∉ dead)
    (usable : f.Usable block id input) : g.Usable block id input := by
  obtain ⟨operand, kind⟩ := input
  cases operand with
  | const value => exact usable
  | param index => exact ⟨usable.1, rewrites.kept.params ▸ usable.2⟩
  | undef => exact usable
  | inst source =>
    obtain ⟨kinds, live, done, rest, split, passed⟩ := usable
    have alive := alive source rfl
    refine ⟨(rewrites.kindOf? source).trans kinds, rewrites.mem_liveInsts.mpr ⟨live, alive⟩,
      done.filter (!dead.contains ·), rest.filter (!dead.contains ·), ?_, rewrites.passed careful alive passed⟩
    rw [rewrites.insts, split, List.filter_append, List.filter_cons_of_pos (by simpa using here)]

theorem terminated (rewrites : f.Rewrites g change dead) (careful : f.Careful change dead) {block : Nat}
    (terminated : f.Terminated (f.blockInsts block)) : g.Terminated (g.blockInsts block) := by
  obtain ⟨body, last, split, ends, before⟩ := terminated
  have alive : last ∉ dead := by
    intro gone
    unfold Function.isTerminator at ends
    split at ends
    · next instr found =>
      rw [(careful.idle last gone instr found).no_targets.2] at ends
      contradiction
    · contradiction
  refine ⟨body.filter (!dead.contains ·), last, ?_, (rewrites.isTerminator last).trans ends, fun id member => ?_⟩
  · rw [rewrites.insts, split, List.filter_append, List.filter_cons_of_pos (by simpa using alive)]
    rfl
  · rw [rewrites.isTerminator]
    exact before id (List.mem_filter.mp member).1

theorem wellFormed (rewrites : f.Rewrites g change dead) (careful : f.Careful change dead)
    (wellFormed : f.WellFormed) : g.WellFormed := by
  have layout := rewrites.kept.layout
  refine ⟨?_, ?_, ?_, ?_, ?_, ?_, ?_, ?_⟩
  · obtain ⟨entry, block, first, found, name⟩ := wellFormed.entry
    have names := congrArg (·[entry]?) rewrites.kept.blockNames
    simp only [Array.getElem?_map, show f.blocks[entry]? = some block from found, Option.map_some, name] at names
    obtain ⟨block', found', name'⟩ := Option.map_eq_some_iff.mp names
    exact ⟨entry, block', rewrites.entry?.trans first, found', name'⟩
  · rw [layout, rewrites.kept.blocks]
    exact wellFormed.layout
  · have filtered : g.liveInsts = f.liveInsts.filter (!dead.contains ·) := by
      simp only [liveInsts, List.filter_flatMap, layout]
      exact congrArg (f.layout.flatMap ·) (funext rewrites.insts)
    rw [filtered]
    exact wellFormed.linkedOnce.sublist List.filter_sublist
  · intro id live
    rw [rewrites.kept.size]
    exact wellFormed.inRange id (rewrites.mem_liveInsts.mp live).1
  · intro block here
    exact rewrites.terminated careful (wellFormed.terminated block (layout ▸ here))
  · intro block here next edge
    rw [rewrites.successors careful] at edge
    rw [layout, rewrites.entry?]
    exact wellFormed.targets block (layout ▸ here) next edge
  · intro block here id member slot
    rw [rewrites.isSlot] at slot
    rw [rewrites.entry?]
    exact wellFormed.slots block (layout ▸ here) id (rewrites.mem_blockInsts.mp member).1 slot
  · intro block here id member input asked
    obtain ⟨member, alive⟩ := rewrites.mem_blockInsts.mp member
    rw [rewrites.inputsOf] at asked
    obtain ⟨old, asked', same⟩ := List.mem_map.mp asked
    subst same
    have unnoticed := careful.unnoticed block id member alive old asked'
    exact rewrites.usable careful alive unnoticed.alive unnoticed.usable

/-- The same place in both functions, with the same values but for those left out. -/
structure Like (f g : Function) (dead : List Nat) (x y : Frame) : Prop where
  func : y.func = g
  block : y.block = x.block
  rest : y.rest = x.rest.filter (!dead.contains ·)
  args : y.args = x.args
  depth : y.depth = x.depth
  size : y.values.size = x.values.size
  values : ∀ id, id ∉ dead → y.values[id]? = x.values[id]?
  slots : ∀ slot ∈ f.loadedSlots, y.slots.read slot = x.slots.read slot

variable {x y : Frame} {id : Nat} {rest : List Nat}

theorem Like.read (like : Like f g dead x y) {operand : Operand} {kind : Kind} {computed : Nat → Prop}
    (fits : f.Fits computed (operand, kind)) (alive : ∀ source, operand = .inst source → source ∉ dead) :
    y.read operand = x.read operand := by
  cases operand with
  | const value => rfl
  | param index => simp only [Frame.read, like.args]
  | inst source => simp only [Frame.read, like.values source (alive source rfl)]
  | undef => exact fits.elim

theorem Like.setValue (like : Like f g dead x y) (id : Nat) (value : Double) :
    Like f g dead (x.setValue id value) (y.setValue id value) := by
  refine ⟨like.func, like.block, like.rest, like.args, like.depth, ?_, fun other alive => ?_, like.slots⟩
  · simpa [Frame.setValue] using like.size
  · simp only [Frame.setValue, Array.getElem?_setIfInBounds, like.size, like.values other alive]

theorem Like.writeSlot (like : Like f g dead x y) (slot : Nat) (value : Double) :
    Like f g dead (x.writeSlot slot value) (y.writeSlot slot value) := by
  refine ⟨like.func, like.block, like.rest, like.args, like.depth, like.size, like.values, fun other loaded => ?_⟩
  simp only [Frame.writeSlot, Slots.read_write, like.slots other loaded]

/-- An instruction that is kept comes next in both. -/
theorem Like.advance (like : Like f g dead x y) (next : x.rest = id :: rest) (alive : id ∉ dead) :
    y.rest = id :: rest.filter (!dead.contains ·) ∧
      Like f g dead { x with rest := rest } { y with rest := rest.filter (!dead.contains ·) } := by
  refine ⟨?_, like.func, like.block, rfl, like.args, like.depth, like.size, like.values, like.slots⟩
  rw [like.rest, next, List.filter_cons_of_pos (by simpa using alive)]

/-- An idle instruction makes no difference to a function without it. -/
theorem Like.skip (like : Like f g dead x y) (next : x.rest = id :: rest) (gone : id ∈ dead) {instr : Instr}
    (idle : f.Idle id instr) {action : Frame.Action} (performs : x.Performs id rest instr action) :
    ∃ moved, action = .move moved ∧ Like f g dead moved y := by
  have skipped : y.rest = rest.filter (!dead.contains ·) := by
    rw [like.rest, next, List.filter_cons_of_neg (by simpa using gone)]
  cases performs with
  | @compute instr value computes =>
    refine ⟨_, rfl, like.func, like.block, skipped, like.args, like.depth, ?_, fun other alive => ?_, like.slots⟩
    · simpa [Frame.setValue] using like.size
    · have apart : id ≠ other := fun same => alive (same ▸ gone)
      simp [Frame.setValue, apart, like.values other alive]
  | slot =>
    cases idle with
    | pure _ unread =>
      refine ⟨_, rfl, like.func, like.block, skipped, like.args, like.depth, like.size, like.values, ?_⟩
      intro other loaded
      have apart : other ≠ id := fun same => unread (same ▸ loaded)
      simp only [Frame.writeSlot, Slots.read_write, if_neg apart, like.slots other loaded]
  | @store operand slot value reads =>
    have unread : slot ∉ f.loadedSlots := by
      cases idle with
      | pure harmless _ => contradiction
      | store unread => exact unread
    refine ⟨_, rfl, like.func, like.block, skipped, like.args, like.depth, like.size, like.values, ?_⟩
    intro other loaded
    have apart : other ≠ slot := fun same => unread (same ▸ loaded)
    simp only [Frame.writeSlot, Slots.read_write, if_neg apart, like.slots other loaded]
  | jump inside => cases idle with | pure harmless _ => contradiction
  | branch reads chosen inside => cases idle with | pure harmless _ => contradiction
  | call reads => cases idle with | pure harmless _ => contradiction
  | ret reads => cases idle with | pure harmless _ => contradiction

/-- The same action in both functions. -/
inductive LikeAction (f g : Function) (dead : List Nat) : Frame.Action → Frame.Action → Prop where
  | move {x y : Frame} (like : Like f g dead x y) : LikeAction f g dead (.move x) (.move y)
  | jump {x y : Frame} (like : Like f g dead x y) : LikeAction f g dead (.jump x) (.jump y)
  | call {x y : Frame} (like : Like f g dead x y) (id callee : Nat) (args : List Double) :
      LikeAction f g dead (.call x id callee args) (.call y id callee args)
  | ret (value : Double) : LikeAction f g dead (.ret value) (.ret value)

theorem Like.landing (rewrites : f.Rewrites g change dead) (like : Like f g dead x y) (func : x.func = f)
    (dest : Nat) : Like f g dead (x.landing dest) (y.landing dest) := by
  refine ⟨like.func, rfl, ?_, like.args, like.depth, like.size, like.values, like.slots⟩
  simp only [Frame.landing, like.func, func, rewrites.insts]

/-- What an instruction reads in `x` its rewritten form reads in `y`. -/
def Agree (change : Operand → Operand) (x y : Frame) (inputs : List (Operand × Kind)) : Prop :=
  ∀ input ∈ inputs, y.read (change input.1) = x.read input.1 ∧ (input.2 = .place → change input.1 = input.1)

theorem Agree.readAll {args : List Operand} (agree : Agree change x y (args.map fun arg => (arg, .real))) :
    y.readAll (args.map change) = x.readAll args := by
  induction args with
  | nil => rfl
  | cons arg args ih =>
    obtain ⟨first, others⟩ := List.forall_mem_cons.mp agree
    simp only [List.map_cons, Frame.readAll, first.1, ih others]

theorem Agree.read {inputs : List (Operand × Kind)} (agree : Agree change x y inputs) {operand : Operand}
    {kind : Kind} (asked : (operand, kind) ∈ inputs) {value : Double} (reads : x.read operand = .ok value) :
    y.read (change operand) = .ok value :=
  (agree _ asked).1.trans reads

theorem Agree.computes (like : Like f g dead x y) {instr : Instr} (agree : Agree change x y instr.inputs)
    (loads : ∀ slot, instr = .load (.inst slot) → slot ∈ f.loadedSlots) {value : Double}
    (computes : x.Computes instr value) : y.Computes (instr.mapOperands change) value := by
  cases computes with
  | arith left right =>
    exact .arith (agree.read (.head _) left) (agree.read (.tail _ (.head _)) right)
  | compare left right =>
    exact .compare (agree.read (.head _) left) (agree.read (.tail _ (.head _)) right)
  | toReal reads => exact .toReal (agree.read (.head _) reads)
  | @load slot =>
    have same : change (.inst slot) = .inst slot := (agree (.inst slot, .place) (by simp [Instr.inputs])).2 rfl
    rw [← like.slots slot (loads slot rfl), Instr.mapOperands, same]
    exact .load

/-- A rewritten instruction does what the old one did. -/
theorem Like.perform (rewrites : f.Rewrites g change dead) (like : Like f g dead x y) (func : x.func = f)
    {instr : Instr} (agree : Agree change x y instr.inputs)
    (loads : ∀ slot, instr = .load (.inst slot) → slot ∈ f.loadedSlots) {rest' : List Nat}
    (later : Like f g dead { x with rest := rest } { y with rest := rest' }) {action : Frame.Action}
    (performs : x.Performs id rest instr action) :
    ∃ action', y.Performs id rest' (instr.mapOperands change) action' ∧ LikeAction f g dead action action' := by
  have blocks : y.func.blocks.size = x.func.blocks.size := by rw [like.func, func, rewrites.kept.blocks]
  cases performs with
  | @compute instr value computes =>
    exact ⟨_, .compute (agree.computes like loads computes), .move (later.setValue id value)⟩
  | slot => exact ⟨_, .slot, .move (later.writeSlot id .zero)⟩
  | @store operand slot value reads =>
    have same : change (.inst slot) = .inst slot := (agree (.inst slot, .place) (by simp [Instr.inputs])).2 rfl
    rw [Instr.mapOperands, same]
    exact ⟨_, .store (agree.read (.head _) reads), .move (later.writeSlot slot value)⟩
  | @jump dest inside => exact ⟨_, .jump (blocks ▸ inside), .jump (like.landing rewrites func dest)⟩
  | @branch flag yes no dest value reads chosen inside =>
    exact ⟨_, .branch (agree.read (.head _) reads) chosen (blocks ▸ inside),
      .jump (like.landing rewrites func dest)⟩
  | @call callee args values reads =>
    exact ⟨_, .call (agree.readAll.trans reads), .call later id callee values⟩
  | @ret operand value reads => exact ⟨_, .ret (agree.read (.head _) reads), .ret value⟩

/-- A careful rewriting can stand in for the function. -/
theorem refines (rewrites : f.Rewrites g change dead) (careful : f.Careful change dead)
    (wellFormed : f.WellFormed) : Refines f g := by
  refine ⟨fun x y => (∃ trail done, f.Reached trail done x) ∧ Like f g dead x y, fun args depth => ?_, ?_, ?_, ?_⟩
  · obtain ⟨entry, first, starts⟩ := wellFormed.enterBody_eq
    obtain ⟨entry', first', starts'⟩ := (rewrites.wellFormed careful wellFormed).enterBody_eq
    cases (first'.symm.trans (rewrites.entry?.trans first))
    refine ⟨_, _, starts args depth, starts' args depth, ⟨[], [], .start first⟩, ?_⟩
    refine ⟨rfl, rfl, rewrites.insts entry, rfl, rfl, ?_, fun id _ => ?_, fun slot _ => ?_⟩
    · simp [Frame.start, rewrites.kept.size]
    · simp [Frame.start, rewrites.kept.size]
    · simp [Frame.start, rewrites.kept.size]
  · rintro x y ⟨_, like⟩
    exact like.depth
  · rintro x y ⟨⟨trail, done, reached⟩, _⟩
    exact wellFormed.progress (reached.lies wellFormed)
  · rintro x y action ⟨⟨trail, done, reached⟩, like⟩ acts
    have lies := reached.lies wellFormed
    obtain ⟨id, rest, instr, next, split, found, performs⟩ := lies.next acts
    have member : id ∈ f.blockInsts x.block := by simp [split]
    by_cases gone : id ∈ dead
    · obtain ⟨moved, rfl, like'⟩ := like.skip next gone (careful.idle id gone instr found) performs
      exact .inl ⟨⟨trail, done ++ [id], .move reached next acts⟩, like'⟩
    · have agree : Agree change x y instr.inputs := by
        intro input asked
        have unnoticed := careful.unnoticed x.block id member gone input (by rw [Function.inputsOf, found]; exact asked)
        refine ⟨?_, unnoticed.place⟩
        rw [like.read unnoticed.usable unnoticed.alive]
        exact unnoticed.same trail done rest x reached rfl next
      have loads : ∀ slot, instr = .load (.inst slot) → slot ∈ f.loadedSlots := by
        rintro slot rfl
        exact List.mem_filterMap.mpr ⟨id, wellFormed.live member, by rw [found]; rfl⟩
      obtain ⟨next', later⟩ := like.advance next gone
      obtain ⟨action', performs', alike⟩ := like.perform rewrites lies.func agree loads later performs
      have acts' : y.Acts action' := by
        refine ⟨id, _, _, next', ?_, performs'⟩
        rw [like.func, rewrites.instrs, found]
        rfl
      cases alike with
      | move like' => exact .inr ⟨_, acts', ⟨trail, _, .move reached next acts⟩, like'⟩
      | jump like' => exact ⟨_, acts', ⟨_, _, .jump reached acts⟩, like'⟩
      | call like' id' callee args =>
        exact ⟨_, acts', fun value => ⟨⟨trail, _, .call reached next acts value⟩, like'.setValue id' value⟩⟩
      | ret value => exact acts'

theorem calls (rewrites : f.Rewrites g change dead) {callee count : Nat} (calls : g.Calls callee count) :
    f.Calls callee count := by
  obtain ⟨id, live, called⟩ := calls
  obtain ⟨args, found, length⟩ := callOf?_eq_some.mp called
  rw [rewrites.instrs] at found
  obtain ⟨instr, found', same⟩ := Option.map_eq_some_iff.mp found
  cases instr <;> cases same
  exact ⟨id, (rewrites.mem_liveInsts.mp live).1, callOf?_eq_some.mpr ⟨_, found', by simpa using length⟩⟩

end Rewrites

/-- A well-formed function that can stand in for `f` and calls nothing that `f` does not call. -/
structure Improves (f g : Function) : Prop where
  wellFormed : g.WellFormed
  refines : Refines f g
  calls : ∀ {callee count}, g.Calls callee count → f.Calls callee count

theorem Improves.trans {h : Function} (first : f.Improves g) (second : g.Improves h) : f.Improves h :=
  ⟨second.wellFormed, first.refines.trans second.refines, fun calls => first.calls (second.calls calls)⟩

theorem Rewrites.improves (rewrites : f.Rewrites g change dead) (careful : f.Careful change dead)
    (wellFormed : f.WellFormed) : f.Improves g :=
  ⟨rewrites.wellFormed careful wellFormed, rewrites.refines careful wellFormed, rewrites.calls⟩

end Kaleidoscope.Flow.Function
