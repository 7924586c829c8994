import Kaleidoscope.Proofs.Flow.Order
import Kaleidoscope.Proofs.Machine.Action

/-!
Where calls of a well-formed function can get to. Nothing goes wrong there: every operand can be read and every
block has an instruction left.
-/

namespace Kaleidoscope

open Kaleidoscope.Flow

namespace Machine.Frame

variable {x y : Frame} {id : Nat} {rest : List Nat} {instr : Instr}

/-- What the frames before and after a move within a block have in common. -/
structure Moves (x : Frame) (id : Nat) (rest : List Nat) (y : Frame) : Prop where
  func : y.func = x.func
  block : y.block = x.block
  rest : y.rest = rest
  args : y.args = x.args
  depth : y.depth = x.depth
  size : y.values.size = x.values.size
  values : ∀ other ≠ id, y.values[other]? = x.values[other]?

theorem Moves.setValue (x : Frame) (id : Nat) (rest : List Nat) (value : Double) :
    x.Moves id rest ({ x with rest := rest }.setValue id value) :=
  ⟨rfl, rfl, rfl, rfl, rfl, by simp [Frame.setValue],
    fun other apart => by simp [Frame.setValue, Ne.symm apart]⟩

theorem Moves.writeSlot (x : Frame) (id : Nat) (rest : List Nat) (slot : Nat) (value : Double) :
    x.Moves id rest ({ x with rest := rest }.writeSlot slot value) :=
  ⟨rfl, rfl, rfl, rfl, rfl, rfl, fun _ _ => rfl⟩

theorem Moves.read {operand : Operand} (moves : x.Moves id rest y) (apart : operand ≠ .inst id) :
    y.read operand = x.read operand := by
  cases operand with
  | const value => rfl
  | param index => simp only [Frame.read, moves.args]
  | inst other => simp only [Frame.read, moves.values other fun same => apart (by rw [same])]
  | undef => simp only [Frame.read, moves.func]

theorem Performs.moves (performs : x.Performs id rest instr (.move y)) :
    x.Moves id rest y ∧ instr.isTerminator = false := by
  cases performs with
  | compute computes => exact ⟨.setValue x id rest _, by cases computes <;> rfl⟩
  | slot => exact ⟨.writeSlot x id rest _ _, rfl⟩
  | store reads => exact ⟨.writeSlot x id rest _ _, rfl⟩

theorem Performs.jumps (performs : x.Performs id rest instr (.jump y)) :
    ∃ dest ∈ instr.targets, y = x.landing dest := by
  cases performs with
  | jump inside => exact ⟨_, List.mem_singleton_self _, rfl⟩
  | @branch flag yes no dest value reads chosen inside =>
    refine ⟨dest, ?_, rfl⟩
    subst chosen
    cases value.truthy <;> simp [Instr.targets]

theorem Performs.calls {waiting callee : Nat} {args : List Double}
    (performs : x.Performs id rest instr (.call y waiting callee args)) :
    y = { x with rest := rest } ∧ waiting = id ∧ instr.isTerminator = false := by
  cases performs
  exact ⟨rfl, rfl, rfl⟩

end Machine.Frame

open Machine

namespace Flow.Function

/-- A call of `f` can get here: `trail` has the blocks it has left, the last one first, and `done` the instructions
of the current block it has carried out. Calls may come back with any result. -/
inductive Reached (f : Function) : List Nat → List Nat → Frame → Prop where
  | start {args : List Double} {depth entry : Nat} (first : f.entry? = some entry) :
      Reached f [] [] (.start f args depth entry (f.blockInsts entry))
  | move {trail done rest : List Nat} {x y : Frame} {id : Nat} (before : Reached f trail done x)
      (next : x.rest = id :: rest) (acts : x.Acts (.move y)) : Reached f trail (done ++ [id]) y
  | call {trail done rest : List Nat} {x y : Frame} {id waiting callee : Nat} {args : List Double}
      (before : Reached f trail done x) (next : x.rest = id :: rest) (acts : x.Acts (.call y waiting callee args))
      (value : Double) : Reached f trail (done ++ [id]) (y.setValue waiting value)
  | jump {trail done : List Nat} {x y : Frame} (before : Reached f trail done x) (acts : x.Acts (.jump y)) :
      Reached f (x.block :: trail) [] y

variable {f : Function} {trail done : List Nat} {x : Frame}

/-- How a frame that has been reached lies in its function. -/
structure Lies (f : Function) (trail done : List Nat) (x : Frame) : Prop where
  func : x.func = f
  walk : f.Walk (x.block :: trail)
  split : f.blockInsts x.block = done ++ x.rest
  values : x.values.size = f.insts.size
  goesOn : x.rest ≠ []

private theorem Terminated.ne_nil {insts : List Nat} (terminated : f.Terminated insts) : insts ≠ [] := by
  obtain ⟨body, last, split, _⟩ := terminated
  simp [split]

/-- Only a terminator stands at the end of a block. -/
theorem Terminated.goesOn {done rest : List Nat} {id : Nat} (terminated : f.Terminated (done ++ id :: rest))
    (plain : f.isTerminator id = false) : rest ≠ [] := by
  obtain ⟨body, last, split, ends, _⟩ := terminated
  rintro rfl
  obtain ⟨_, same⟩ := List.append_inj' split rfl
  cases same
  rw [ends] at plain
  contradiction

theorem WellFormed.walk_mem_layout (wellFormed : f.WellFormed) {block : Nat} (walk : f.Walk (block :: trail)) :
    block ∈ f.layout := by
  generalize same : block :: trail = whole at walk
  induction walk generalizing block trail with
  | entry first =>
    cases same
    exact List.mem_of_mem_head? first
  | step walk edge ih =>
    cases same
    exact (wellFormed.targets _ (ih rfl) _ edge).1

/-- The instruction that a frame carries out next, where the frame lies. -/
theorem Lies.next (lies : f.Lies trail done x) {action : Frame.Action} (acts : x.Acts action) :
    ∃ id rest instr, x.rest = id :: rest ∧ f.blockInsts x.block = done ++ id :: rest ∧ f.instr? id = some instr ∧
      x.Performs id rest instr action := by
  obtain ⟨id, rest, instr, next, found, performs⟩ := acts
  refine ⟨id, rest, instr, next, ?_, ?_, performs⟩
  · rw [lies.split, next]
  · rw [← lies.func]
    exact found

theorem Lies.performs (lies : f.Lies trail done x) {id : Nat} {rest : List Nat} (next : x.rest = id :: rest)
    {action : Frame.Action} (acts : x.Acts action) :
    ∃ instr, f.blockInsts x.block = done ++ id :: rest ∧ f.instr? id = some instr ∧
      x.Performs id rest instr action := by
  obtain ⟨id', rest', instr, next', split, found, performs⟩ := lies.next acts
  cases next.symm.trans next'
  exact ⟨instr, split, found, performs⟩

theorem Reached.lies (wellFormed : f.WellFormed) (reached : f.Reached trail done x) : f.Lies trail done x := by
  induction reached with
  | start first =>
    have here := wellFormed.walk_mem_layout (.entry first)
    exact ⟨rfl, .entry first, rfl, Array.size_replicate, (wellFormed.terminated _ here).ne_nil⟩
  | @move trail done rest x y id before next acts ih =>
    obtain ⟨instr, split, found, performs⟩ := ih.performs next acts
    obtain ⟨moves, plain⟩ := performs.moves
    have terminated := wellFormed.terminated _ (wellFormed.walk_mem_layout ih.walk)
    rw [split] at terminated
    refine ⟨moves.func.trans ih.func, moves.block ▸ ih.walk, ?_, moves.size.trans ih.values, ?_⟩
    · rw [moves.block, split, moves.rest, List.append_assoc]
      rfl
    · rw [moves.rest]
      exact terminated.goesOn (by rw [Function.isTerminator, found]; exact plain)
  | @call trail done rest x y id waiting callee args before next acts value ih =>
    obtain ⟨instr, split, found, performs⟩ := ih.performs next acts
    obtain ⟨rfl, rfl, plain⟩ := performs.calls
    have terminated := wellFormed.terminated _ (wellFormed.walk_mem_layout ih.walk)
    rw [split] at terminated
    refine ⟨ih.func, ih.walk, ?_, ?_, ?_⟩
    · show f.blockInsts x.block = done ++ [waiting] ++ rest
      rw [split, List.append_assoc]
      rfl
    · simpa [Frame.setValue] using ih.values
    · exact terminated.goesOn (by rw [Function.isTerminator, found]; exact plain)
  | @jump trail done x y before acts ih =>
    obtain ⟨id, rest, instr, next, split, found, performs⟩ := ih.next acts
    obtain ⟨dest, target, rfl⟩ := performs.jumps
    have edge : dest ∈ f.successors x.block :=
      List.mem_flatMap.mpr ⟨id, by simp [split], by rw [targetsOf, found]; exact target⟩
    have walk := ih.walk.step edge
    have terminated := wellFormed.terminated _ (wellFormed.walk_mem_layout walk)
    have rest : (x.landing dest).rest = f.blockInsts dest := by rw [Frame.landing, ih.func]
    exact ⟨ih.func, walk, rest.symm, ih.values, rest ▸ terminated.ne_nil⟩

/-- Operands of the kind asked for can be read. -/
theorem Fits.read {computed : Nat → Prop} {operand : Operand} {kind : Kind} (fits : f.Fits computed (operand, kind))
    (size : x.values.size = f.insts.size) : ∃ value, x.read operand = .ok value := by
  cases operand with
  | const value => exact ⟨value, rfl⟩
  | param index => exact ⟨_, rfl⟩
  | inst source =>
    obtain ⟨instr, found, _⟩ := Option.bind_eq_some_iff.mp fits.1
    obtain ⟨inst, has, _⟩ := Option.map_eq_some_iff.mp found
    have inside := (Array.getElem?_eq_some_iff.mp has).1
    rw [← size] at inside
    exact ⟨x.values[source], by simp [Frame.read, inside]⟩
  | undef => exact fits.elim

theorem Fits.readAll {computed : Nat → Prop} {operands : List Operand}
    (fits : ∀ operand ∈ operands, f.Fits computed (operand, .real)) (size : x.values.size = f.insts.size) :
    ∃ values, x.readAll operands = .ok values := by
  induction operands with
  | nil => exact ⟨[], rfl⟩
  | cons operand operands ih =>
    obtain ⟨first, others⟩ := List.forall_mem_cons.mp fits
    obtain ⟨value, reads⟩ := first.read size
    obtain ⟨values, reads'⟩ := ih others
    exact ⟨value :: values, by simp only [Frame.readAll, reads, reads']⟩

/-- An operand that must be a place is a slot. -/
theorem Fits.place {computed : Nat → Prop} {operand : Operand} (fits : f.Fits computed (operand, .place)) :
    ∃ slot, operand = .inst slot ∧ f.instr? slot = some .slot ∧ computed slot := by
  cases operand with
  | const value => contradiction
  | param index => exact absurd fits.1 (by decide)
  | inst source =>
    obtain ⟨instr, found, kind⟩ := Option.bind_eq_some_iff.mp fits.1
    refine ⟨source, rfl, ?_, fits.2⟩
    cases instr <;> first | exact found | simp [Instr.kind?] at kind
  | undef => exact fits.elim

/-- A frame that has been reached can always go on. -/
theorem WellFormed.progress (wellFormed : f.WellFormed) (lies : f.Lies trail done x) :
    ∃ action, x.Acts action := by
  cases next : x.rest with
  | nil => exact absurd next lies.goesOn
  | cons id rest =>
    have split := lies.split
    rw [next] at split
    have here := wellFormed.walk_mem_layout lies.walk
    have member : id ∈ f.blockInsts x.block := by simp [split]
    have inside := wellFormed.inRange id (wellFormed.live member)
    obtain ⟨instr, found⟩ : ∃ instr, f.instr? id = some instr := ⟨_, by simp [instr?, inst?, inside]; rfl⟩
    have usable := wellFormed.operands _ here id member
    rw [inputsOf, found] at usable
    have targets : ∀ dest ∈ instr.targets, dest < x.func.blocks.size := fun dest target => by
      rw [lies.func, ← wellFormed.mem_layout]
      exact (wellFormed.targets _ here dest (List.mem_flatMap.mpr ⟨id, member, by
        rw [targetsOf, found]; exact target⟩)).1
    suffices ∃ action, x.Performs id rest instr action by
      obtain ⟨action, performs⟩ := this
      exact ⟨action, id, rest, instr, next, lies.func ▸ found, performs⟩
    have reads : ∀ operand kind, (operand, kind) ∈ instr.inputs → ∃ value, x.read operand = .ok value :=
      fun operand kind asked => (usable _ asked).read lies.values
    have places : ∀ operand, (operand, .place) ∈ instr.inputs → ∃ slot, operand = .inst slot :=
      fun operand asked => ((usable _ asked).place).imp fun _ => And.left
    cases instr with
    | arith op lhs rhs =>
      obtain ⟨l, left⟩ := reads lhs .real (by simp [Instr.inputs])
      obtain ⟨r, right⟩ := reads rhs .real (by simp [Instr.inputs])
      exact ⟨_, .compute (.arith left right)⟩
    | compare rel lhs rhs =>
      obtain ⟨l, left⟩ := reads lhs .real (by simp [Instr.inputs])
      obtain ⟨r, right⟩ := reads rhs .real (by simp [Instr.inputs])
      exact ⟨_, .compute (.compare left right)⟩
    | toReal flag =>
      obtain ⟨value, held⟩ := reads flag .flag (by simp [Instr.inputs])
      exact ⟨_, .compute (.toReal held)⟩
    | call callee args =>
      obtain ⟨values, held⟩ := Fits.readAll (fun arg member => usable (arg, .real) (by simpa [Instr.inputs]))
        lies.values
      exact ⟨_, .call held⟩
    | slot => exact ⟨_, .slot⟩
    | load place =>
      obtain ⟨slot, rfl⟩ := places place (by simp [Instr.inputs])
      exact ⟨_, .compute .load⟩
    | store operand place =>
      obtain ⟨value, held⟩ := reads operand .real (by simp [Instr.inputs])
      obtain ⟨slot, rfl⟩ := places place (by simp [Instr.inputs])
      exact ⟨_, .store held⟩
    | jump dest => exact ⟨_, .jump (targets dest (List.mem_singleton_self _))⟩
    | branch flag yes no =>
      obtain ⟨value, held⟩ := reads flag .flag (by simp [Instr.inputs])
      refine ⟨_, .branch held rfl (targets _ ?_)⟩
      cases value.truthy <;> simp [Instr.targets]
    | ret operand =>
      obtain ⟨value, held⟩ := reads operand .real (by simp [Instr.inputs])
      exact ⟨_, .ret held⟩

/-- A call of a well-formed function starts at its entry. -/
theorem WellFormed.enterBody_eq (wellFormed : f.WellFormed) : ∃ entry, f.entry? = some entry ∧
    ∀ args depth, enterBody f args depth = .ok (.body (.start f args depth entry (f.blockInsts entry))) := by
  obtain ⟨entry, block, first, found, _⟩ := wellFormed.entry
  refine ⟨entry, first, fun args depth => ?_⟩
  simp only [enterBody, first, found, blockInsts]

end Flow.Function

end Kaleidoscope
