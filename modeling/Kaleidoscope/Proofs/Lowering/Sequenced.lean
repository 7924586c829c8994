import Kaleidoscope.Proofs.Lowering.Confined
import Kaleidoscope.Proofs.Lowering.Reachable

/-!
Which expressions keep their values in their blocks. The operands of an operator, the arguments of a call and the step
of a loop are held as plain values while the parts behind them are lowered. If one of those parts has a condition or a
loop in it, the value ends up in another block than the instruction that uses it.
-/

namespace Kaleidoscope

open Kaleidoscope.Flow

namespace Expr

mutual

/-- An expression without conditions and loops, so that its code stays in one block. -/
def straight : Expr → Bool
  | .binary _ lhs rhs => straight lhs && straight rhs
  | .unary _ operand => straight operand
  | .cond _ _ _ => false
  | .loop _ _ _ _ _ => false
  | .call _ args => straightAll args
  | .bind bindings body => straightBindings bindings && straight body
  | _ => true

def straightAll : List Expr → Bool
  | [] => true
  | e :: es => straight e && straightAll es

def straightBindings : List (String × Expr) → Bool
  | [] => true
  | (_, init) :: bindings => straight init && straightBindings bindings

end

/-- An expression whose value is a constant, so that no instruction computes it. -/
def constant : Expr → Bool
  | .number _ => true
  | .binary op lhs rhs =>
    if op = '=' then constant rhs else (arithmetic? op).isSome && constant lhs && constant rhs
  | .loop _ _ _ _ _ => true
  | .bind _ body => constant body
  | _ => false

/-- Values that are held while what follows them is lowered are constants, or what follows stays in one block. -/
def held : List Expr → Bool
  | [] => true
  | e :: es => (constant e || straightAll es) && held es

mutual

/-- No part of the expression needs a value that was computed before a condition or a loop. -/
def sequenced : Expr → Bool
  | .binary op lhs rhs =>
    if op = '=' then sequenced rhs else sequenced lhs && sequenced rhs && held [lhs, rhs]
  | .unary _ operand => sequenced operand
  | .cond test yes no => sequenced test && sequenced yes && sequenced no
  | .loop _ start stop step body =>
    sequenced start && sequenced body && sequencedStep step && sequenced stop &&
      held [step.getD (.number .one), stop]
  | .call _ args => sequencedAll args && held args
  | .bind bindings body => sequencedBindings bindings && sequenced body
  | _ => true

def sequencedStep : Option Expr → Bool
  | none => true
  | some step => sequenced step

def sequencedAll : List Expr → Bool
  | [] => true
  | e :: es => sequenced e && sequencedAll es

def sequencedBindings : List (String × Expr) → Bool
  | [] => true
  | (_, init) :: bindings => sequenced init && sequencedBindings bindings

end

private theorem sequencedStep_eq (step : Option Expr) : sequencedStep step = sequenced (step.getD (.number .one)) := by
  cases step with
  | none => simp [sequencedStep, sequenced]
  | some step => simp [sequencedStep]

end Expr

open Kaleidoscope.Expr

namespace Flow.Site

/-- Building went on from `s` to `t`, in the same block if the code was straight and in a new one otherwise. -/
def Moves (s : Site) (straight : Bool) (t : Site) : Prop :=
  if straight then t.block = s.block else s.nextBlock ≤ t.block

/-- The value of an expression: a constant, or the result of an instruction, which stands in the current block if the
code since then was straight, and in another otherwise. -/
def Yields (site : Site) (constant straight : Bool) (value : Operand) : Prop :=
  if constant then ∃ number, value = .const number
  else ∃ id, value = .inst id ∧ site.func.isSlot id = false ∧ (id ∈ site.func.blockInsts site.block ↔ straight = true)

/-- The values of expressions at the end of the code of all of them. -/
def Holds (site : Site) : List Expr → List Operand → Prop
  | [], [] => True
  | e :: es, value :: values => site.Yields (constant e) (straightAll es) value ∧ site.Holds es values
  | _, _ => False

variable {s t u : Site} {first second : Bool} {value : Operand}

theorem Moves.trans (earlier : s.Moves first t) (later : t.Moves second u) (grows : s.func.Grows t.func) :
    s.Moves (first && second) u := by
  have blocks : s.nextBlock ≤ t.nextBlock := grows.blocks
  cases second with
  | true =>
    have same : u.block = t.block := later
    unfold Moves
    rw [same, Bool.and_true]
    exact earlier
  | false =>
    rw [Bool.and_false]
    exact Nat.le_trans blocks later

theorem Yields.local_iff (yields : s.Yields first second value) :
    s.Local value ↔ first = true ∨ second = true := by
  unfold Yields at yields
  cases first with
  | true =>
    obtain ⟨number, rfl⟩ := yields
    simp [(near_const s number).close]
  | false =>
    obtain ⟨id, rfl, plain, inside⟩ := yields
    simp [Local, plain, inside]

theorem Yields.constant {number : Double} (yields : s.Yields first second (.const number)) : first = true := by
  cases first with
  | true => rfl
  | false =>
    obtain ⟨id, same, _⟩ := yields
    contradiction

/-- What becomes of a value while more code is added. -/
theorem Yields.onward (yields : s.Yields first true value) (tidy : s.Tidy) (tidy' : t.Tidy)
    (grows : s.func.Grows t.func) (moves : s.Moves second t) : t.Yields first second value := by
  unfold Yields at *
  cases first with
  | true => exact yields
  | false =>
    obtain ⟨id, rfl, plain, inside⟩ := yields
    have member := inside.mpr rfl
    have before := tidy.arranged.inRange s.block id member
    have found : s.func.instr? id = some s.func.insts[id].instr := by
      simp [Function.instr?, Function.inst?, before]
    have same : t.func.instr? id = s.func.instr? id := (grows.instrs id _ found).trans found.symm
    refine ⟨id, rfl, (Function.isSlot_congr same).trans plain, ?_⟩
    have kept := (grows.kept s.block).subset member
    unfold Moves at moves
    cases second with
    | true => simpa [show t.block = s.block from moves] using kept
    | false =>
      have here : s.block < s.nextBlock := tidy.here
      have apart : s.nextBlock ≤ t.block := moves
      simp only [Bool.false_eq_true, iff_false]
      intro member'
      have := tidy'.arranged.apart id _ _ kept member'
      omega

theorem Holds.local_iff {exprs : List Expr} {values : List Operand} (holds : s.Holds exprs values) :
    (∀ value ∈ values, s.Local value) ↔ held exprs = true := by
  induction exprs generalizing values with
  | nil =>
    cases values with
    | nil => simp [held]
    | cons value values => exact absurd holds id
  | cons e es ih =>
    cases values with
    | nil => exact absurd holds id
    | cons value values =>
      obtain ⟨yields, others⟩ := holds
      rw [List.forall_mem_cons, yields.local_iff, ih others]
      simp [held]

theorem Holds.close {e : Expr} (holds : s.Holds [e] [value]) : s.Local value :=
  holds.1.local_iff.mpr (.inr (by simp [straightAll]))

/-- The result of a new instruction. -/
theorem yields_push (tidy : s.Tidy) {instr : Instr} (plain : instr.isSlot = false) (name : String) :
    (s.push instr name).Yields false true s.next := by
  refine ⟨s.func.insts.size, rfl, ?_, ?_⟩
  · simp [Function.isSlot, instr?_push, plain]
  · simp [blockInsts_push tidy.here]

end Flow.Site

open Flow.Site

variable {m : Module} {scope : Scope} {exprs : List Expr} {s t u : Site} {values : List Operand}

/-- What the code of expressions does: where it leads, what becomes of the values, and whether all values stay in their
blocks. -/
structure Tracks (exprs : List Expr) (s : Site) (values : List Operand) (t : Site) : Prop where
  moves : s.Moves (straightAll exprs) t
  holds : t.Holds exprs values
  confined : t.func.Confined ↔ s.func.Confined ∧ sequencedAll exprs = true

/-- The code of one expression. -/
theorem Tracks.one {e : Expr} {value : Operand} (moves : s.Moves (straight e) t)
    (yields : t.Yields (constant e) true value)
    (confined : t.func.Confined ↔ s.func.Confined ∧ sequenced e = true) : Tracks [e] s [value] t where
  moves := by simpa [straightAll] using moves
  holds := ⟨yields, trivial⟩
  confined := by simpa [sequencedAll] using confined

theorem Tracks.cons {e : Expr} {value : Operand} (first : Tracks [e] s [value] t) (others : Tracks exprs t values u)
    (tidy : t.Tidy) (tidy' : u.Tidy) (grows : s.func.Grows t.func) (grows' : t.func.Grows u.func) :
    Tracks (e :: exprs) s (value :: values) u where
  moves := by
    have moves := first.moves.trans others.moves grows
    simpa [straightAll] using moves
  holds := ⟨first.holds.1.onward tidy tidy' grows' others.moves, others.holds⟩
  confined := by
    rw [others.confined, first.confined]
    simp [sequencedAll, and_assoc]

/-- An instruction that uses all the values. -/
theorem Tracks.use {e : Expr} {instr : Instr} (tracks : Tracks exprs s values t) (tidy : t.Tidy)
    (older : ∀ value ∈ values, t.Older value) (plain : instr.isSlot = false) (operands : instr.operands = values)
    (name : String) (straight_eq : straight e = straightAll exprs) (constant_eq : constant e = false)
    (sequenced_eq : sequenced e = (sequencedAll exprs && held exprs)) :
    Tracks [e] s [t.next] (t.push instr name) := by
  refine .one ?_ (constant_eq ▸ yields_push tidy plain name) ?_
  · rw [straight_eq]
    exact tracks.moves
  · rw [confined_push tidy instr (operands ▸ older), operands, tracks.holds.local_iff, tracks.confined, sequenced_eq]
    simp [and_assoc]

namespace Flow.Site

variable {value : Operand}

/-- A slot is near wherever the function has it. -/
theorem near_of_slot {id : Nat} (found : s.func.instr? id = some .slot) : s.Near (.inst id) := by
  refine ⟨fun source same => ?_, local_slot (by simp [Function.isSlot, found, Instr.isSlot])⟩
  cases same
  exact Function.instr?_lt found

/-- The variables in scope live in slots. -/
theorem Ready.near_slot {name : String} {slot : Operand} (ready : s.Ready scope)
    (bound : scope.lookup name = some slot) : s.Near slot := by
  obtain ⟨waiting, said, draft, slots⟩ := ready
  have place := slots _ (Scope.mem_of_lookup bound)
  cases slot with
  | const value => exact near_const s value
  | param index => exact near_param s index
  | inst id =>
    obtain ⟨instr, found, kind⟩ := Option.bind_eq_some_iff.mp place.1
    have slot : instr = .slot := by cases instr <;> first | rfl | cases kind
    exact near_of_slot (slot ▸ found)
  | undef => exact absurd place id

theorem Ready.grows_push (ready : s.Ready scope) {instr : Instr} (plain : instr.isSlot = false) (name : String) :
    s.func.Grows (s.push instr name).func := by
  obtain ⟨waiting, said, draft, _⟩ := ready
  exact draft.shape.grows_push plain name

private theorem nextBlock_newVariable (tidy : s.Tidy) (name : String) (value : Operand) :
    (s.newVariable name value).nextBlock = s.nextBlock := by
  rw [newVariable, push_nextBlock, nextBlock, addSlot_blocks_size tidy.arranged]
  rfl

private theorem fork_slot (tidy : s.Tidy) (near : s.Near value) :
    (s.fork value).func.instr? (s.test value "ifcond").func.insts.size = some .slot := by
  have tested := (quiet_test tidy near "ifcond").tidy
  have added : ((s.test value "ifcond").addSlot "iftmp").func.instr? (s.test value "ifcond").func.insts.size =
      some .slot := by
    rw [instr?_addSlot tested.arranged, if_pos rfl]
  have blocks : (s.forkBlocks value).func.instr? (s.test value "ifcond").func.insts.size = some .slot := added
  show ((s.forkBlocks value).push _ "").func.instr? _ = _
  rw [instr?_push, if_neg (Nat.ne_of_lt (Function.instr?_lt blocks)), blocks]

theorem forkBlock_eq (arranged : s.func.Arranged) (here : s.block < s.nextBlock) (value : Operand) :
    s.forkBlock value = s.nextBlock := by
  have tested : (s.test value "ifcond").func.Arranged := arranged.addInst here rfl
  rw [forkBlock, nextBlock, addSlot_blocks_size tested]
  exact test_nextBlock s value "ifcond"

end Flow.Site

section

variable {test yes no : Expr} {w : Site} {v a b : Operand}

theorem Tracks.cond (tested : Lowers m scope [test] s [v] t) (first : Lowers m scope [yes] (t.fork v) [a] u)
    (second : Lowers m scope [no] (t.otherwise v u a) [b] w) (ready : s.Ready scope)
    (asks : Tracks [test] s [v] t) (runs : Tracks [yes] (t.fork v) [a] u)
    (runs' : Tracks [no] (t.otherwise v u a) [b] w) :
    Tracks [.cond test yes no] s [(t.meet v w b).next] ((t.meet v w b).push (.load (t.forkSlot v)) "iftmp") := by
  have branches := tested.branches first second ready
  obtain ⟨_, grows, older⟩ := tested.ready ready
  obtain ⟨_, _, older'⟩ := first.ready branches.forked
  obtain ⟨_, _, older''⟩ := second.ready branches.other
  have tidy := branches.tested.tidy
  have near : t.Near v := ⟨older v (List.mem_singleton_self v), asks.holds.close⟩
  have value : u.Near a := ⟨older' a (List.mem_singleton_self a), runs.holds.close⟩
  have value' : w.Near b := ⟨older'' b (List.mem_singleton_self b), runs'.holds.close⟩
  have slot := branches.runs.instrs _ _ (fork_slot tidy near)
  have slot' := branches.runs'.instrs _ _ (branches.switches.instrs _ _ slot)
  have place : u.Near (t.forkSlot v) := near_of_slot slot
  have place' : w.Near (t.forkSlot v) := near_of_slot slot'
  have place'' : (t.meet v w b).Near (t.forkSlot v) := near_of_slot (branches.joins.instrs _ _ slot')
  have inside : t.forkBlock v + 1 < u.func.blocks.size := by
    simpa [otherwise, endBranch, moveToEnd, Function.moveToEnd] using branches.other.tidy.here
  have inside' : t.forkBlock v + 2 < w.func.blocks.size := by
    simpa [meet, endBranch, moveToEnd, Function.moveToEnd] using branches.joined.tidy.here
  have switches : (t.otherwise v u a).func.Confined ↔ u.func.Confined :=
    confined_endBranch branches.ended.tidy value place inside (Nat.succ_ne_zero _) _
  have joins : (t.meet v w b).func.Confined ↔ w.func.Confined :=
    confined_endBranch branches.ended'.tidy value' place' inside' (Nat.succ_ne_zero _) _
  refine .one ?_ (yields_push branches.joined.tidy rfl "iftmp") ?_
  · have blocks : s.nextBlock ≤ t.nextBlock := grows.blocks
    show s.nextBlock ≤ t.forkBlock v + 2
    rw [forkBlock_eq tidy.arranged tidy.here]
    omega
  · rw [(quiet_load branches.joined.tidy place'' "iftmp").confined, joins, runs'.confined, switches, runs.confined,
      confined_fork tidy near, asks.confined]
    simp [sequenced, sequencedAll, and_assoc]

end

section

variable {name : String} {start stop body : Expr} {step : Option Expr} {first value stride ignored : Operand}

theorem Tracks.loop (started : Lowers m scope [start] (s.addSlot name) [first] t)
    (round : Lowers m ((name, s.next) :: scope) [body, step.getD (.number .one), stop] (t.enterLoop first s.next)
      [ignored, stride, value] u) (ready : s.Ready scope)
    (begins : Tracks [start] (s.addSlot name) [first] t)
    (runs : Tracks [body, step.getD (.number .one), stop] (t.enterLoop first s.next) [ignored, stride, value] u) :
    Tracks [.loop name start stop step body] s [.const .zero]
      ((u.advance name s.next stride).leaveLoop value t.nextBlock) := by
  have rounds := started.rounds round ready
  obtain ⟨_, grows, older⟩ := started.ready (ready.addSlot name)
  obtain ⟨_, _, older'⟩ := round.ready rounds.entered
  have added := quiet_addSlot ready.tidy name
  have slot : (s.addSlot name).func.instr? s.func.insts.size = some .slot := by
    rw [instr?_addSlot ready.tidy.arranged, if_pos rfl]
  have slot' := grows.instrs _ _ slot
  have near : t.Near first := ⟨older first (List.mem_singleton_self first), begins.holds.close⟩
  have place : t.Near s.next := near_of_slot slot'
  have place' : u.Near s.next := near_of_slot (rounds.runs.instrs _ _ (rounds.enters.instrs _ _ slot'))
  obtain ⟨_, stepped, tested, _⟩ := runs.holds
  obtain ⟨stays, advances⟩ := stays_advance rounds.ended.tidy place' (older' stride (by simp)) name
  have flag : u.Near value := ⟨older' value (by simp), tested.local_iff.mpr (.inr (by simp [straightAll]))⟩
  have leaves := confined_leaveLoop stays.tidy (stays.near flag) t.nextBlock
  refine .one ?_ ⟨.zero, rfl⟩ ?_
  · show s.nextBlock ≤ (u.advance name s.next stride).nextBlock
    have blocks := (grows.trans rounds.enters).trans (rounds.runs.trans rounds.advances) |>.blocks
    rw [addSlot_blocks_size ready.tidy.arranged] at blocks
    exact blocks
  · rw [leaves, advances, runs.confined, confined_enterLoop rounds.started.tidy near place, begins.confined,
      added.confined, stepped.local_iff]
    simp [sequenced, sequencedAll, sequencedStep_eq, held, straightAll, and_assoc]

end

theorem Tracks.arith {symbol : Char} {op : Arith} {hint : String} {lhs rhs : Expr} {l r : Operand}
    (known : arithmetic? symbol = some (op, hint)) (tidy : t.Tidy) (older : ∀ value ∈ [l, r], t.Older value)
    (tracks : Tracks [lhs, rhs] s [l, r] t) :
    Tracks [.binary symbol lhs rhs] s [(t.arith op l r hint).1] (t.arith op l r hint).2 := by
  have other : symbol ≠ '=' := by
    rintro rfl
    contradiction
  have constant_eq : constant (.binary symbol lhs rhs) = (constant lhs && constant rhs) := by
    simp [constant, other, known]
  obtain ⟨left, right, _⟩ := tracks.holds
  by_cases folds : constant lhs = true ∧ constant rhs = true
  · -- Both operands are constants, so nothing is emitted.
    obtain ⟨leftConstant, rightConstant⟩ := folds
    rw [leftConstant] at left
    rw [rightConstant] at right
    obtain ⟨x, rfl⟩ := left
    obtain ⟨y, rfl⟩ := right
    refine .one ?_ ?_ ?_
    · show s.Moves _ t
      simpa [straight, straightAll] using tracks.moves
    · rw [constant_eq, leftConstant, rightConstant]
      exact ⟨_, rfl⟩
    · rw [show (t.arith op (.const x) (.const y) hint).2 = t from rfl, tracks.confined]
      simp [sequenced, sequencedAll, other, held, leftConstant, rightConstant]
  · have emitted : t.arith op l r hint = (t.next, t.push (.arith op l r) hint) := by
      rcases t.arith_cases op l r hint with ⟨x, y, rfl, rfl, _⟩ | emitted
      · exact absurd ⟨left.constant, right.constant⟩ folds
      · exact emitted
    rw [emitted]
    refine tracks.use tidy older rfl rfl hint ?_ ?_ ?_
    · simp [straight, straightAll]
    · rw [constant_eq]
      simpa using folds
    · simp [sequenced, sequencedAll, other]

private theorem Lowers.tracks (code : Lowers m scope exprs s values t) : s.Ready scope → Tracks exprs s values t := by
  induction code with
  | nil =>
    intro ready
    exact ⟨rfl, trivial, by simp [sequencedAll]⟩
  | cons first others ih ih' =>
    intro ready
    obtain ⟨ready', grows, _⟩ := first.ready ready
    obtain ⟨ready'', grows', _⟩ := others.ready ready'
    exact (ih ready).cons (ih' ready') ready'.tidy ready''.tidy grows grows'
  | number =>
    intro ready
    exact .one rfl ⟨_, rfl⟩ (by simp [sequenced])
  | @var scope name slot s bound =>
    intro ready
    have loaded := quiet_load ready.tidy (ready.near_slot bound) name
    refine .one rfl (yields_push ready.tidy rfl name) ?_
    rw [loaded.confined]
    simp [sequenced]
  | @assign scope name e slot v s t value bound ih =>
    intro ready
    obtain ⟨ready', _, older⟩ := value.ready ready
    obtain ⟨moves, holds, confined⟩ := ih ready
    have near : t.Near v := ⟨older v (List.mem_singleton_self v), holds.close⟩
    have stored := quiet_store ready'.tidy near (ready'.near_slot bound)
    have grows : t.func.Grows (t.push (.store v slot) "").func := ready'.grows_push rfl ""
    refine .one ?_ (holds.1.onward ready'.tidy stored.tidy grows rfl) ?_
    · show s.Moves _ t
      simpa [straight, straightAll] using moves
    · rw [stored.confined, confined]
      simp [sequenced, sequencedAll]
  | arith known operands ih =>
    intro ready
    obtain ⟨ready', _, older⟩ := operands.ready ready
    exact .arith known ready'.tidy older (ih ready)
  | @less scope lhs rhs s t l r operands ih =>
    intro ready
    obtain ⟨ready', _, older⟩ := operands.ready ready
    have compared : Tracks [.binary '<' lhs rhs] s [t.next] (t.push (.compare .less l r) "cmptmp") := by
      refine (ih ready).use ready'.tidy older rfl rfl "cmptmp" ?_ ?_ ?_
      · simp [straight, straightAll]
      · simp [constant, arithmetic?]
      · simp [sequenced, sequencedAll]
    have tidy := ready'.tidy.push (.compare .less l r) rfl older "cmptmp"
    have flag := near_push ready'.tidy (.compare .less l r) "cmptmp"
    have turned := quiet_push tidy (.toReal t.next) rfl (List.forall_mem_singleton.mpr flag) "booltmp"
    exact ⟨compared.moves, ⟨yields_push tidy rfl "booltmp", trivial⟩, turned.confined.trans compared.confined⟩
  | @binary scope symbol callee lhs rhs s t l r user operands found ih =>
    intro ready
    obtain ⟨ready', _, older⟩ := operands.ready ready
    refine (ih ready).use ready'.tidy older rfl rfl "binop" ?_ ?_ ?_
    · simp [straight, straightAll]
    · simp [constant, user]
    · simp [sequenced, sequencedAll, user]
  | unary value found ih =>
    intro ready
    obtain ⟨ready', _, older⟩ := value.ready ready
    refine (ih ready).use ready'.tidy older rfl rfl "unop" ?_ rfl ?_
    · simp [straight, straightAll]
    · simp [sequenced, sequencedAll, held, straightAll]
  | call found count values ih =>
    intro ready
    obtain ⟨ready', _, older⟩ := values.ready ready
    refine (ih ready).use ready'.tidy older rfl rfl "calltmp" ?_ rfl ?_
    · simp [straight]
    · simp [sequenced]
  | cond tested first second ih ih' ih'' =>
    intro ready
    have branches := tested.branches first second ready
    exact .cond tested first second ready (ih ready) (ih' branches.forked) (ih'' branches.other)
  | loop started round ih ih' =>
    intro ready
    have rounds := started.rounds round ready
    exact .loop started round ready (ih (ready.addSlot _)) (ih' rounds.entered)
  | bindNone value ih =>
    intro ready
    obtain ⟨moves, holds, confined⟩ := ih ready
    refine .one ?_ ?_ ?_
    · simpa [straight, straightAll, straightBindings] using moves
    · exact holds.1
    · simpa [sequenced, sequencedAll, sequencedBindings] using confined
  | @bindOne scope name init body bindings s t u v w value others ih ih' =>
    intro ready
    obtain ⟨ready', grows, older⟩ := value.ready ready
    obtain ⟨begun, _⟩ := value.readyVariable name ready
    have first := ih ready
    obtain ⟨moves, holds, confined⟩ := ih' begun
    have near : t.Near v := ⟨older v (List.mem_singleton_self v), first.holds.close⟩
    have bound := quiet_newVariable ready'.tidy near name
    have moves' : t.Moves (straightAll [.bind bindings body]) u := by
      unfold Moves at moves ⊢
      rwa [nextBlock_newVariable ready'.tidy] at moves
    refine .one ?_ holds.1 ?_
    · simpa [straight, straightAll, straightBindings, Bool.and_assoc] using first.moves.trans moves' grows
    · rw [confined, bound.confined, first.confined]
      simp [sequenced, sequencedAll, sequencedBindings, and_assoc]

namespace Flow.Site

private theorem confined_opened (name : String) (params : List String) : (opened name params).func.Confined := by
  intro block _ id member
  rw [opened, Function.blockInsts_addBlock] at member
  contradiction

private theorem quiet_bindParams (names : List String) (index : Nat) (scope : Scope) (tidy : s.Tidy) :
    (s.bindParams names index scope).1.Tidy ∧
      ((s.bindParams names index scope).1.func.Confined ↔ s.func.Confined) := by
  induction names generalizing index s scope with
  | nil => exact ⟨tidy, .rfl⟩
  | cons name names ih =>
    have bound := quiet_newVariable tidy (near_param s index) name
    obtain ⟨tidy', confined⟩ := ih (index + 1) ((name, s.next) :: scope) bound.tidy
    exact ⟨tidy', confined.trans bound.confined⟩

end Flow.Site

namespace Lowering.Attempt

variable {c : Context} {proto : Prototype} {body : Expr}

theorem confined_iff (attempt : Attempt c proto body) {value : Operand} (done : attempt.result = .ok value) :
    (attempt.function value).Confined ↔ body.sequenced = true := by
  obtain ⟨draft, _, slots, _⟩ := attempt.startDraft
  have ready : attempt.start.Ready attempt.scope := ⟨_, _, draft, slots⟩
  have code := attempt.lowers done
  obtain ⟨ready', _, older⟩ := code.ready ready
  have tracks := code.tracks ready
  have start : attempt.start.func.Confined := by
    have opened := quiet_bindParams proto.params 0 [] (opened_draft attempt.name attempt.params).tidy
    rw [attempt.opens] at opened
    exact opened.2.mpr (confined_opened _ _)
  have near : attempt.last.Near value := ⟨older value (List.mem_singleton_self value), tracks.holds.close⟩
  have returned := quiet_push ready'.tidy (.ret value) rfl (List.forall_mem_singleton.mpr near) ""
  rw [function, returned.confined, tracks.confined]
  simp [start, sequencedAll]

end Lowering.Attempt

private theorem Lowering.definition_confined {c : Context} (sound : c.Sound) (plain : c.builder.passes = [])
    {proto : Prototype} {body : Expr} {id : Nat} (done : (definition proto body c).1 = .ok id) :
    ∃ f, (definition proto body c).2.builder.module.function? id = some f ∧ (f.Confined ↔ body.sequenced = true) := by
  obtain ⟨attempt, value, result, found⟩ := Context.function?_definition sound done
  rw [plain] at found
  exact ⟨attempt.function value, found, attempt.confined_iff result⟩

theorem ok_of_toOption {ε α : Type} {result : Except ε α} {value : α} (done : result.toOption = some value) :
    result = .ok value := by
  cases result with
  | error reason => contradiction
  | ok other => exact congrArg Except.ok (Option.some.inj done)

namespace Form

/-- Without passes, the values of a definition stay in their blocks exactly if none is held while a condition or a loop
is lowered. -/
theorem confined_iff_sequenced {allowed : Form → Prop} {c : Context} (reachable : c.Reachable [] allowed)
    (proto : Prototype) (body : Expr) (table : PrecedenceTable) {id : Nat}
    (done : ((definition proto body).lower c table).result = .ok id) :
    ∃ f, ((definition proto body).lower c table).context.builder.module.function? id = some f ∧
      (f.Confined ↔ body.sequenced = true) :=
  Lowering.definition_confined reachable.sound reachable.passes_eq done

/-- `def f(x) (if x then 1 else 0) + x` -/
theorem confined_condition_first : ∃ f,
    ((definition ⟨"f", ["x"], .function, 30⟩
        (.binary '+' (.cond (.var "x") (.number .one) (.number .zero)) (.var "x"))).lower
      (.new (.new "m" [])) .standard).context.builder.module.function? 0 = some f ∧ f.Confined := by
  have reachable : Context.Reachable [] (fun _ => True) (.new (.new "m" [])) := .new "m"
  have done : ((definition ⟨"f", ["x"], .function, 30⟩
      (.binary '+' (.cond (.var "x") (.number .one) (.number .zero)) (.var "x"))).lower
    (.new (.new "m" [])) .standard).result.toOption = some 0 := by decide +kernel
  obtain ⟨f, found, confined⟩ := confined_iff_sequenced reachable ⟨"f", ["x"], .function, 30⟩
    (.binary '+' (.cond (.var "x") (.number .one) (.number .zero)) (.var "x")) .standard (ok_of_toOption done)
  exact ⟨f, found, confined.mpr rfl⟩

/-- `def f(x) x + (if x then 1 else 0)`: the first operand is loaded before the condition and used behind it. -/
theorem crossing_condition_last : ∃ f,
    ((definition ⟨"f", ["x"], .function, 30⟩
        (.binary '+' (.var "x") (.cond (.var "x") (.number .one) (.number .zero)))).lower
      (.new (.new "m" [])) .standard).context.builder.module.function? 0 = some f ∧ ¬ f.Confined := by
  have sound : (Context.new (.new "m" [])).Sound := .new _ rfl
  have done : (Lowering.definition ⟨"f", ["x"], .function, 30⟩
      (.binary '+' (.var "x") (.cond (.var "x") (.number .one) (.number .zero)))
    (.new (.new "m" []))).1.toOption = some 0 := by decide +kernel
  obtain ⟨f, found, confined⟩ := Lowering.definition_confined sound rfl (ok_of_toOption done)
  refine ⟨f, found, fun inside => ?_⟩
  have sequenced := confined.mp inside
  contradiction

end Form

end Kaleidoscope
