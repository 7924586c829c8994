import Kaleidoscope.Proofs.Meaning.Simulation

/-!
The code of conditions, loops and bindings does what evaluating them does.
-/

namespace Kaleidoscope

open Kaleidoscope.Flow Kaleidoscope.Machine

namespace Agrees

variable {σ α : Type} [Output σ] {m : Module} {limits : Limits} {left : Nat} {state : State σ} {f : Function}
  {t u other after : Site} {waiting : Nat → Prop} {evaluation : Port σ → Option (Except Fault (α × Cells) × Port σ)}
  {post : α → Cells → Frame → Prop} {v : Operand} {value : Double}

/-- A condition forks to the branch that evaluation takes. -/
theorem fork (shape : t.Shape waiting) (grows : (t.fork v).func.Grows f) (arranged : f.Arranged)
    (block : other.block = t.forkBlock v + 1) (empty : other.func.blockInsts (t.forkBlock v + 1) = [])
    (stands : state.frame.At f t) (reads : state.frame.read v = .ok value)
    (later : ∀ frame : Frame, ∀ fewer < left, frame.At f (if value.ordNe .zero then t.fork v else other) →
      state.frame.Keeps t.func.insts.size frame → frame.slots = state.frame.slots →
      Agrees m limits fewer { state with frame := frame } evaluation post) :
    Agrees m limits left state evaluation post := by
  have tested : (t.test v "ifcond").Shape waiting := shape.push rfl rfl
  have blocks := shape.forkBlocks v
  have grown := (shape.grows_forkBlocks v).trans ((blocks.grows_push rfl "").trans grows)
  refine .compute stands shape grown (.compare reads rfl) ?_
  intro frame fewer bound stands keeps slots reads
  have stands : frame.At f (t.forkBlocks v) :=
    (((stands.addSlot tested.arranged "iftmp").addBlock "then").addBlock "else").addBlock "ifcont"
  generalize chosen : (if value.ordNe .zero then t.fork v else other) = target at later
  have block : target.block = if value.ordNe .zero then t.forkBlock v else t.forkBlock v + 1 := by
    subst chosen
    split
    · rfl
    · exact block
  have empty : target.func.blockInsts target.block = [] := by
    rw [block, ← chosen]
    split
    · exact shape.fork_empty v
    · exact empty
  obtain ⟨inside, notFirst, _⟩ := blocks.empty target.block (.inl (by grind))
  have inside := Nat.lt_of_lt_of_le inside ((blocks.grows_push rfl "").trans grows).blocks
  refine .jump target stands blocks rfl grows arranged inside notFirst empty (fun rest => ?_) ?_
  · simp only [State.exec, Frame.read_rest, reads, Double.truthy_ofBool, block]
    rfl
  · intro frame' fewer' bound' stands keeps' slots'
    exact later frame' fewer' (Nat.lt_trans bound' bound) stands (keeps.trans (keeps' _) (Nat.le_refl _))
      (slots'.trans slots)

/-- A branch of a condition leaves its value in the slot of the result and goes to the block after the condition. -/
theorem endBranch {slot block next : Nat} (shape : u.Shape waiting)
    (grows : (u.endBranch v (.inst slot) block next).func.Grows f) (arranged : f.Arranged)
    (meets : after.block = block) (empty : after.func.blockInsts block = []) (inside : block < f.blocks.size)
    (notFirst : block ≠ 0) (stands : state.frame.At f u) (reads : state.frame.read v = .ok value)
    (later : ∀ frame : Frame, ∀ fewer < left, frame.At f after → (∀ bound, state.frame.Keeps bound frame) →
      frame.slots = state.frame.slots.write slot value →
      Agrees m limits fewer { state with frame := frame } evaluation post) :
    Agrees m limits left state evaluation post := by
  subst meets
  have stored : (u.push (.store v (.inst slot)) "").Shape waiting := shape.push rfl rfl
  have grown : ((u.push (.store v (.inst slot)) "").push (.jump after.block) "").func.Grows f :=
    (Site.grows_moveToEnd _ next).trans grows
  refine .store stands shape ((stored.grows_push rfl "").trans grown) reads ?_
  intro frame fewer bound stands keeps slots
  refine .jump after stands stored rfl grown arranged inside notFirst empty (fun rest => rfl) ?_
  intro frame' fewer' bound' stands keeps' slots'
  exact later frame' fewer' (Nat.lt_trans bound' bound) stands
    (fun bound => (keeps bound).trans (keeps' bound) (Nat.le_refl _)) (slots'.trans slots)

/-- The variable of a loop gets its first value, and the first round starts. -/
theorem enterLoop {slot : Nat} (shape : t.Shape waiting) (grows : (t.enterLoop v (.inst slot)).func.Grows f)
    (arranged : f.Arranged) (stands : state.frame.At f t) (reads : state.frame.read v = .ok value)
    (later : ∀ frame : Frame, ∀ fewer < left, frame.At f (t.enterLoop v (.inst slot)) →
      (∀ bound, state.frame.Keeps bound frame) → frame.slots = state.frame.slots.write slot value →
      Agrees m limits fewer { state with frame := frame } evaluation post) :
    Agrees m limits left state evaluation post := by
  have stored : (t.push (.store v (.inst slot)) "").Shape waiting := shape.push rfl rfl
  have blocks := stored.addBlock "loop"
  rw [Site.push_nextBlock] at blocks
  have grown : ((t.push (.store v (.inst slot)) "").addBlock "loop").func.Grows f :=
    (blocks.grows_push rfl "").trans grows
  obtain ⟨inside, notFirst, _⟩ := blocks.empty t.nextBlock (.inr rfl)
  refine .store stands shape ((Site.grows_addBlock _ "loop").trans grown) reads ?_
  intro frame fewer bound stands keeps slots
  refine .jump (t.enterLoop v (.inst slot)) (stands.addBlock "loop") blocks rfl grows arranged
    (Nat.lt_of_lt_of_le inside grown.blocks) notFirst (shape.enterLoop_empty v (.inst slot)) (fun rest => rfl) ?_
  intro frame' fewer' bound' stands keeps' slots'
  exact later frame' fewer' (Nat.lt_trans bound' bound) stands
    (fun bound => (keeps bound).trans (keeps' bound) (Nat.le_refl _)) (slots'.trans slots)

/-- The variable of a loop moves on. -/
theorem advance {slot : Nat} {name : String} (shape : u.Shape waiting)
    (grows : (u.advance name (.inst slot) v).func.Grows f) (stands : state.frame.At f u) (older : u.Older v)
    (reads : state.frame.read v = .ok value)
    (later : ∀ frame : Frame, ∀ fewer < left, frame.At f (u.advance name (.inst slot) v) →
      state.frame.Keeps u.func.insts.size frame →
      frame.slots = state.frame.slots.write slot (Arith.add.apply (state.frame.slots.read slot) value) →
      Agrees m limits fewer { state with frame := frame } evaluation post) :
    Agrees m limits left state evaluation post := by
  have loaded : (u.push (.load (.inst slot)) name).Shape waiting := shape.push rfl rfl
  have added : ((u.push (.load (.inst slot)) name).push (.arith .add u.next v) "nextvar").Shape waiting :=
    loaded.push rfl rfl
  have stores := (added.grows_push rfl "").trans grows
  refine .compute stands shape ((loaded.grows_push rfl "nextvar").trans stores) .load ?_
  intro frame fewer bound stands keeps slots current
  refine .compute stands loaded stores (.arith current (keeps.read older reads)) ?_
  intro frame' fewer' bound' stands keeps' slots' next
  refine .store stands added grows next ?_
  intro frame'' fewer'' bound'' stands keeps'' slots''
  refine later frame'' fewer'' (by omega) stands ?_ ?_
  · exact (keeps.trans keeps' (by simp)).trans (keeps'' _) (Nat.le_refl _)
  · rw [slots'', slots', slots]

/-- A round ends: the next one starts if the test holds, and the loop is left otherwise. -/
theorem leaveLoop (top : Site) (shape : u.Shape waiting) (grows : (u.leaveLoop v top.block).func.Grows f)
    (arranged : f.Arranged) (inside : top.block < f.blocks.size) (notFirst : top.block ≠ 0)
    (empty : top.func.blockInsts top.block = []) (stands : state.frame.At f u)
    (reads : state.frame.read v = .ok value)
    (later : ∀ frame : Frame, ∀ fewer < left,
      frame.At f (if value.ordNe .zero then top else u.leaveLoop v top.block) →
      state.frame.Keeps u.func.insts.size frame → frame.slots = state.frame.slots →
      Agrees m limits fewer { state with frame := frame } evaluation post) :
    Agrees m limits left state evaluation post := by
  have tested : (u.test v "loopcond").Shape waiting := shape.push rfl rfl
  have blocks := tested.addBlock "afterloop"
  rw [Site.test_nextBlock] at blocks
  have grown : ((u.test v "loopcond").addBlock "afterloop").func.Grows f := (blocks.grows_push rfl "").trans grows
  refine .compute stands shape ((Site.grows_addBlock _ "afterloop").trans grown) (.compare reads rfl) ?_
  intro frame fewer bound stands keeps slots reads
  generalize chosen : (if value.ordNe .zero then top else u.leaveLoop v top.block) = target at later
  have block : target.block = if value.ordNe .zero then top.block else u.nextBlock := by
    subst chosen
    split <;> rfl
  have here : target.block < f.blocks.size ∧ target.block ≠ 0 ∧ target.func.blockInsts target.block = [] := by
    subst chosen
    split
    · exact ⟨inside, notFirst, empty⟩
    · obtain ⟨inside, notFirst, _⟩ := blocks.empty u.nextBlock (.inr rfl)
      exact ⟨Nat.lt_of_lt_of_le inside grown.blocks, notFirst, shape.leaveLoop_empty v top.block⟩
  refine .jump target (stands.addBlock "afterloop") blocks rfl grows arranged here.1 here.2.1 here.2.2
    (fun rest => ?_) ?_
  · simp only [State.exec, Frame.read_rest, reads, Double.truthy_ofBool, block]
    rfl
  · intro frame' fewer' bound' stands keeps' slots'
    exact later frame' fewer' (Nat.lt_trans bound' bound) stands (keeps.trans (keeps' _) (Nat.le_refl _))
      (slots'.trans slots)

end Agrees

namespace Evaluator

variable {σ : Type} [Output σ] {e : Evaluator σ} {f : Function} {scope : Scope} {s t u w after : Site} {v a b : Operand}

/-- A branch of a condition, up to the block where it meets the other one. -/
theorem branch_simulates {x : Evaluation σ Double} {slot block next : Nat} (arranged : f.Arranged)
    (ready : u.Ready scope) (grows : (u.endBranch v (.inst slot) block next).func.Grows f)
    (apart : .inst slot ∉ scope.map Prod.snd) (meets : after.block = block)
    (empty : after.func.blockInsts block = []) (inside : block < f.blocks.size) (notFirst : block ≠ 0)
    (branch : e.Simulates f scope x s u fun value y => y.read v = .ok value) :
    e.Simulates f scope x s after fun value y => y.slots.read slot = value := by
  obtain ⟨_, _, draft, _⟩ := ready
  intro left enough state cells depth stands holds
  rw [← bind_pure x]
  refine (branch left enough state cells depth stands holds).bind ?_
  rintro value cells port frame rest fewer ⟨⟨stands, holds, keeps⟩, reads⟩
  refine .endBranch draft.shape grows arranged meets empty inside notFirst stands reads ?_
  intro frame' fewer' _ stands keeps' slots
  refine .pure ⟨⟨stands, ?_, keeps.trans (keeps' _) (Nat.le_refl _)⟩, ?_⟩
  · rw [slots]
    exact holds.write_other value apart
  · exact (congrArg (Slots.read · slot) slots).trans (Slots.read_write_self _ _ _)

/-- A value that waits in a slot is loaded. -/
theorem load_simulates {x : Evaluation σ Double} {slot : Nat} {name : String} (ready : t.Ready scope)
    (size : s.func.insts.size ≤ t.func.insts.size) (grows : (t.push (.load (.inst slot)) name).func.Grows f)
    (simulates : e.Simulates f scope x s t fun value y => y.slots.read slot = value) :
    e.Simulates f scope x s (t.push (.load (.inst slot)) name) fun value y => y.read t.next = .ok value := by
  obtain ⟨_, _, draft, _⟩ := ready
  intro left enough state cells depth stands holds
  rw [← bind_pure x]
  refine (simulates left enough state cells depth stands holds).bind ?_
  rintro value cells port frame rest fewer ⟨⟨stands, holds, keeps⟩, rfl⟩
  refine .compute stands draft.shape grows .load ?_
  intro frame' fewer' _ stands keeps' slots reads
  exact .pure ⟨⟨stands, slots ▸ holds, keeps.trans keeps' size⟩, reads⟩

theorem cond_simulates {test yes no : Expr} (arranged : f.Arranged) (places : Branches scope t v u a w b)
    (ready : s.Ready scope) (before : s.func.Grows t.func)
    (grows : ((t.meet v w b).push (.load (t.forkSlot v)) "iftmp").func.Grows f)
    (tested : e.Simulates f scope (e.expr test) s t fun value y => y.read v = .ok value)
    (first : e.Simulates f scope (e.expr yes) (t.fork v) u fun value y => y.read a = .ok value)
    (second : e.Simulates f scope (e.expr no) (t.otherwise v u a) w fun value y => y.read b = .ok value) :
    e.Simulates f scope (e.expr (.cond test yes no)) s ((t.meet v w b).push (.load (t.forkSlot v)) "iftmp")
      fun value y => y.read (t.meet v w b).next = .ok value := by
  obtain ⟨_, _, draft, _⟩ := places.tested
  obtain ⟨_, _, joined, _⟩ := places.joined
  have joins := (joined.shape.grows_push rfl "iftmp").trans grows
  have runs' := places.joins.trans joins
  have switches := places.runs'.trans runs'
  have runs := places.switches.trans switches
  have forks := places.runs.trans runs
  -- The blocks of the condition are there once it has forked.
  obtain ⟨inside, notFirst, _⟩ := (draft.shape.forkBlocks v).empty (t.forkBlock v + 2) (.inr rfl)
  have inside := Nat.lt_of_lt_of_le inside (((draft.shape.forkBlocks v).grows_push rfl "").trans forks).blocks
  have apart : t.forkSlot v ∉ scope.map Prod.snd := by
    intro member
    have lower := ready.older _ member _ rfl
    have more := before.insts
    simp only [Site.test, Site.push_insts_size] at lower
    omega
  have first := load_simulates places.joined (((places.runs.trans places.switches).trans
    places.runs').trans places.joins).insts grows
    (branch_simulates arranged places.ended switches apart rfl places.meetEmpty inside notFirst first)
  have second := load_simulates places.joined (places.runs'.trans places.joins).insts grows
    (branch_simulates arranged places.ended' joins apart rfl places.meetEmpty inside notFirst second)
  intro left enough state cells depth stands holds
  rw [expr]
  refine (tested left enough state cells depth stands holds).bind ?_
  rintro value cells port frame rest fewer ⟨⟨stands, holds, keeps⟩, reads⟩
  refine .fork draft.shape forks arranged rfl places.noEmpty stands reads ?_
  intro frame' fewer' bound stands keeps' slots
  have enough' : fewer' ≤ e.fuel := Nat.le_trans (Nat.le_of_lt bound) (Nat.le_trans fewer enough)
  have depth' : e.depth = frame'.depth := depth.trans (keeps'.depth.trans keeps.depth).symm
  split at stands
  · next taken =>
    rw [if_pos taken]
    refine (first fewer' enough' ⟨frame', state.callers, port⟩ cells depth' stands (slots ▸ holds)).mono ?_
    rintro value cells y ⟨⟨stands, holds, keeps''⟩, reads⟩
    refine ⟨⟨stands, holds, ?_⟩, reads⟩
    exact keeps.trans (keeps'.trans keeps'' places.forks.insts) before.insts
  · next skipped =>
    rw [if_neg skipped]
    refine (second fewer' enough' ⟨frame', state.callers, port⟩ cells depth' stands (slots ▸ holds)).mono ?_
    rintro value cells y ⟨⟨stands, holds, keeps''⟩, reads⟩
    refine ⟨⟨stands, holds, ?_⟩, reads⟩
    exact keeps.trans (keeps'.trans keeps'' ((places.forks.trans places.runs).trans places.switches).insts)
      before.insts

/-- One round of a loop. -/
def round (e : Evaluator σ) (name : String) (stop : Expr) (step : Option Expr) (body : Expr) : Evaluation σ Bool := do
  let _ ← e.expr body
  let stride ← e.stepValue step
  let test ← e.expr stop
  let current ← Evaluation.read name
  Evaluation.assign name (Arith.add.apply current stride)
  return test.ordNe .zero

/-- What an evaluation does with the values of the parts of a round: the variable moves on after all of them. -/
def roundEnd (name : String) : List Double → Evaluation σ Bool
  | [_, stride, test] => do
    let current ← Evaluation.read name
    Evaluation.assign name (Arith.add.apply current stride)
    return test.ordNe .zero
  | _ => Evaluation.stuck

private theorem round_bind {α : Type} (name : String) (stop : Expr) (step : Option Expr) (body : Expr)
    (k : Bool → Evaluation σ α) :
    e.round name stop step body >>= k =
      e.arguments [body, step.getD (.number .one), stop] >>= fun values => roundEnd name values >>= k := by
  cases step <;> simp only [round, roundEnd, arguments, stepValue, expr, Option.getD, bind_assoc, pure_bind]

/-- As long as rounds are left, the run is at the top of the loop again; there are fewer rounds than steps. -/
theorem repeat_agrees {name : String} {stop body : Expr} {step : Option Expr} {slot : Nat}
    {first ignored stride value : Operand} (arranged : f.Arranged)
    (places : Rounds scope name (.inst slot) t first u stride value)
    (distinct : (((name, .inst slot) :: scope).map Prod.snd).Nodup)
    (older : u.Older stride ∧ u.Older value)
    (grows : ((u.advance name (.inst slot) stride).leaveLoop value t.nextBlock).func.Grows f)
    (simulates : e.Simulates f ((name, .inst slot) :: scope) (e.arguments [body, step.getD (.number .one), stop])
      (t.enterLoop first (.inst slot)) u fun values y => y.readAll [ignored, stride, value] = .ok values)
    (fuel : Nat) (within : fuel ≤ e.fuel) (left : Nat) (enough : left < fuel) (state : State σ) (cells : Cells)
    (depth : e.depth = state.frame.depth) (stands : state.frame.At f (t.enterLoop first (.inst slot)))
    (holds : Holds state.frame.slots ((name, .inst slot) :: scope) cells) :
    Agrees e.module e.limits left state (Evaluation.repeatWhile fuel (e.round name stop step body) cells)
      fun _ cells y => Done f ((name, .inst slot) :: scope) state.frame (t.enterLoop first (.inst slot)).func.insts.size
        ((u.advance name (.inst slot) stride).leaveLoop value t.nextBlock) cells y := by
  obtain ⟨_, _, entered, _⟩ := places.entered
  obtain ⟨_, _, ended, _⟩ := places.ended
  obtain ⟨_, _, advanced, _⟩ := places.advanced
  obtain ⟨_, _, started, _⟩ := places.started
  have inside : t.nextBlock < f.blocks.size := Nat.lt_of_lt_of_le entered.shape.here
    (((places.runs.trans places.advances).trans places.leaves).trans grows).blocks
  have notFirst : t.nextBlock ≠ 0 := Nat.ne_of_gt started.shape.arranged.nonempty
  induction fuel generalizing left state cells with
  | zero => contradiction
  | succ fuel ih =>
    rw [Evaluation.repeatWhile, round_bind]
    refine (simulates left (by omega) state cells depth stands holds).bind ?_
    rintro values cells port frame rest fewer ⟨⟨stands, holds, keeps⟩, reads⟩
    obtain ⟨_, _, rfl, _, reads⟩ := readAll_cons reads
    obtain ⟨amount, goesOn, rfl, readsStride, readsValue⟩ := readAll_two reads
    obtain ⟨_, same, held⟩ := holds.lookup (List.lookup_cons_self)
    cases same
    simp only [roundEnd, bind_assoc]
    rw [Evaluation.bind_of_apply (Evaluation.read_apply held),
      Evaluation.bind_of_apply (Evaluation.assign_apply _ held), pure_bind]
    refine .advance ended.shape (places.leaves.trans grows) stands older.1 readsStride ?_
    intro frame' fewer' bound stands keeps' slots
    refine .leaveLoop (t.enterLoop first (.inst slot)) advanced.shape grows arranged inside notFirst
      places.topEmpty stands (keeps'.read older.2 readsValue) ?_
    intro frame'' fewer'' bound' stands keeps'' slots'
    have kept := (keeps.trans keeps' places.runs.insts).trans keeps'' (places.runs.trans places.advances).insts
    have holds := holds.assign (Arith.add.apply (frame.slots.read slot) amount) distinct List.lookup_cons_self
    rw [← slots, ← slots'] at holds
    split at stands
    · next again =>
      rw [if_pos again]
      refine (ih (by omega) fewer'' (by omega) ⟨frame'', state.callers, port⟩ _ (depth.trans kept.depth.symm)
        stands holds).mono ?_
      rintro _ cells y ⟨stands, holds, keeps⟩
      exact ⟨stands, holds, kept.trans keeps (Nat.le_refl _)⟩
    · next done =>
      rw [if_neg done]
      exact .pure ⟨stands, holds, kept⟩

theorem loop_simulates {name : String} {start stop body : Expr} {step : Option Expr}
    {first ignored stride value : Operand} (arranged : f.Arranged) (ready : s.Ready scope)
    (places : Rounds scope name s.next t first u stride value) (distinct : (scope.map Prod.snd).Nodup)
    (before : (s.addSlot name).func.Grows t.func) (older : u.Older stride ∧ u.Older value)
    (grows : ((u.advance name s.next stride).leaveLoop value t.nextBlock).func.Grows f)
    (starts : e.Simulates f scope (e.expr start) (s.addSlot name) t fun value y => y.read first = .ok value)
    (simulates : e.Simulates f ((name, s.next) :: scope) (e.arguments [body, step.getD (.number .one), stop])
      (t.enterLoop first s.next) u fun values y => y.readAll [ignored, stride, value] = .ok values) :
    e.Simulates f scope (e.expr (.loop name start stop step body)) s
      ((u.advance name s.next stride).leaveLoop value t.nextBlock)
      fun value y => y.read (.const .zero) = .ok value := by
  have apart := ready.next_notMem
  obtain ⟨_, _, draft, _⟩ := ready
  obtain ⟨_, _, started, _⟩ := places.started
  have adds := draft.shape.grows_addSlot name
  have enters := places.runs.trans ((places.advances.trans places.leaves).trans grows)
  intro left enough state cells depth stands holds
  rw [expr]
  refine (starts left enough state cells depth (stands.addSlot draft.shape.arranged name) holds).bind ?_
  rintro amount cells port frame rest fewer ⟨⟨stands, holds, keeps⟩, reads⟩
  refine .enterLoop started.shape enters arranged stands reads ?_
  intro frame' fewer' bound stands keeps' slots
  have holds : Holds frame'.slots ((name, s.next) :: scope) ((name, amount) :: cells) := by
    rw [slots]
    exact .cons (Slots.read_write_self _ _ _) (holds.write_other _ apart)
  have kept := keeps.trans (keeps' _) (Nat.le_refl _)
  have rounds := repeat_agrees arranged places (List.nodup_cons.mpr ⟨apart, distinct⟩) older grows simulates
    e.fuel (Nat.le_refl _) fewer' (by omega) ⟨frame', state.callers, port⟩ ((name, amount) :: cells)
    (depth.trans kept.depth.symm) stands holds
  have repeated : Agrees e.module e.limits fewer' ⟨frame', state.callers, port⟩
      (Evaluation.withVariable name amount (Evaluation.repeatWhile e.fuel (e.round name stop step body)) cells)
      fun _ cells y => Done f scope state.frame s.func.insts.size
        ((u.advance name s.next stride).leaveLoop value t.nextBlock) cells y := by
    refine .withVariable (rounds.mono ?_)
    rintro _ cells y ⟨stands, holds, keeps⟩
    exact ⟨stands, holds.tail, (kept.trans keeps (before.trans places.enters).insts).mono adds.insts⟩
  apply repeated.bind
  intro _ cells port frame rest _ done
  exact .pure ⟨done, rfl⟩

/-- The code of the first of some bindings, given that of the others. -/
theorem bindOne_simulates {name : String} {init body : Expr} {bindings : List (String × Expr)}
    (ready : t.Ready scope) (before : s.func.Grows t.func) (others : (t.newVariable name v).func.Grows f)
    (first : e.Simulates f scope (e.expr init) s t fun value y => y.read v = .ok value)
    (rest : e.Simulates f ((name, t.next) :: scope) (e.expr (.bind bindings body)) (t.newVariable name v) u
      fun value y => y.read a = .ok value) :
    e.Simulates f scope (e.expr (.bind ((name, init) :: bindings) body)) s u
      fun value y => y.read a = .ok value := by
  have apart := ready.next_notMem
  obtain ⟨_, _, draft, _⟩ := ready
  have slotted := (draft.shape.addSlot name)
  have adds := draft.shape.grows_addSlot name
  intro left enough state cells depth stands holds
  rw [expr, withBindings]
  refine (first left enough state cells depth stands holds).bind ?_
  rintro value cells port frame rest' fewer ⟨⟨stands, holds, keeps⟩, reads⟩
  refine .store (stands.addSlot draft.shape.arranged name) slotted others reads ?_
  intro frame' fewer' bound stands keeps' slots
  have holds : Holds frame'.slots ((name, t.next) :: scope) ((name, value) :: cells) := by
    rw [slots]
    exact .cons (Slots.read_write_self _ _ _) (holds.write_other _ apart)
  have kept := keeps.trans (keeps' _) (Nat.le_refl _)
  have inner := rest fewer' (by omega) ⟨frame', state.callers, port⟩ ((name, value) :: cells)
    (depth.trans kept.depth.symm) stands holds
  rw [expr] at inner
  refine .withVariable (inner.mono ?_)
  rintro result cells y ⟨⟨stands, holds, keeps⟩, reads⟩
  refine ⟨⟨stands, holds.tail, kept.trans keeps ?_⟩, reads⟩
  exact (before.trans (adds.trans (slotted.grows_push rfl ""))).insts

end Evaluator

end Kaleidoscope
