import Kaleidoscope.Proofs.Pass.Rewrite

/-!
Equations between the results of instructions and other operands. An equation that holds right after an
instruction has been carried out holds wherever that instruction dominates, and both sides can be exchanged.
-/

namespace Kaleidoscope.Flow.Function

open Kaleidoscope.Machine

variable {f : Function} {trail done rest : List Nat} {x y : Frame} {id block : Nat} {value : Operand}

/-- Wherever `id` has been passed, `value` reads the same as its result. -/
def Holds (f : Function) (id : Nat) (value : Operand) : Prop :=
  ∀ trail done x, f.Reached trail done x → f.Passed id x.block done → x.read value = x.read (.inst id)

/-- A number that can take the place of the result of `id` wherever that is used. -/
structure Equation (f : Function) (id : Nat) (value : Operand) : Prop where
  kind : f.kindOf? id = some .real
  usable : ∃ block, id ∈ f.blockInsts block ∧ f.Usable block id (value, .real)
  holds : f.Holds id value

/-- `other` can take the place of `value`. -/
def Means (f : Function) (value other : Operand) : Prop :=
  other = value ∨ ∃ id, value = .inst id ∧ f.Equation id other

/-- An instruction that has been passed cannot come again before the next block. -/
theorem WellFormed.not_passed (wellFormed : f.WellFormed) (lies : f.Lies trail done x) (next : x.rest = id :: rest) :
    ¬ f.Passed id x.block done := by
  intro passed
  have split := lies.split
  rw [next] at split
  exact wellFormed.no_walk split split passed passed trail lies.walk

/-- Whatever dominates an instruction that has been passed is not carried out next. -/
theorem WellFormed.not_precedes (wellFormed : f.WellFormed) (lies : f.Lies trail done x) {source : Nat}
    (next : x.rest = source :: rest) (passed : f.Passed id x.block done) : ¬ f.Precedes source block id := by
  rintro ⟨done', rest', there, behind⟩
  have split := lies.split
  rw [next] at split
  exact wellFormed.no_walk split there passed behind trail lies.walk

/-- The terminator is the last instruction of its block. -/
theorem Terminated.rest_eq_nil (terminated : f.Terminated (done ++ id :: rest))
    (ends : f.isTerminator id = true) : rest = [] := by
  obtain ⟨body, last, split, _, before⟩ := terminated
  rcases List.eq_nil_or_concat rest with none | ⟨early, final, same⟩
  · exact none
  · have inBody : id ∈ body := by
      rw [same, List.concat_eq_append, ← List.cons_append, ← List.append_assoc] at split
      obtain ⟨same, _⟩ := List.append_inj' split rfl
      simp [← same]
    rw [before id inBody] at ends
    contradiction

/-- What an instruction leaves behind holds wherever it has been passed, as long as `value` dominates it. -/
theorem WellFormed.holds (wellFormed : f.WellFormed) {kind : Kind} (usable : f.Usable block id (value, kind))
    (leaves : ∀ trail done rest x action, f.Reached trail done x → x.rest = id :: rest → x.Acts action →
      ∃ y, action = .move y ∧ y.read (.inst id) = x.read value) : f.Holds id value := by
  have older : ∀ {source}, value = .inst source → f.Precedes source block id := by
    rintro source rfl
    exact usable.2.2
  intro trail done x reached
  induction reached with
  | start first =>
    intro passed
    rcases passed [] (.entry first) with inside | ⟨above, member, _⟩ <;> contradiction
  | @move trail done rest x y id' before next acts ih =>
    have lies := before.lies wellFormed
    obtain ⟨instr, split, found, performs⟩ := lies.performs next acts
    obtain ⟨moves, _⟩ := performs.moves
    intro passed
    rw [moves.block] at passed
    by_cases here : id' = id
    · subst here
      obtain ⟨_, same, reads⟩ := leaves _ _ _ _ _ before next acts
      cases same
      rw [reads]
      refine moves.read fun same => ?_
      obtain ⟨done', rest', there, passed⟩ := older same
      have member : id' ∈ f.blockInsts x.block := by simp [split]
      have block := wellFormed.apart member (by rw [there]; simp : id' ∈ f.blockInsts block)
      exact wellFormed.no_walk there there passed passed trail (block ▸ lies.walk)
    · have passed := passed.unstep (Ne.symm here)
      rw [moves.read fun same => here (Operand.inst.inj same).symm,
        moves.read fun same => wellFormed.not_precedes lies next passed (older same)]
      exact ih passed
  | @call trail done rest x y id' waiting callee args before next acts result ih =>
    have lies := before.lies wellFormed
    obtain ⟨instr, split, found, performs⟩ := lies.performs next acts
    obtain ⟨rfl, rfl, _⟩ := performs.calls
    have moves := Frame.Moves.setValue x waiting rest result
    intro passed
    by_cases here : waiting = id
    · subst here
      obtain ⟨_, same, _⟩ := leaves _ _ _ _ _ before next acts
      contradiction
    · have passed := passed.unstep (Ne.symm here)
      rw [moves.read fun same => here (Operand.inst.inj same).symm,
        moves.read fun same => wellFormed.not_precedes lies next passed (older same)]
      exact ih passed
  | @jump trail done x y before acts ih =>
    have lies := before.lies wellFormed
    obtain ⟨id', rest, instr, next, split, found, performs⟩ := lies.next acts
    obtain ⟨dest, target, rfl⟩ := performs.jumps
    have terminated := wellFormed.terminated _ (wellFormed.walk_mem_layout lies.walk)
    rw [split] at terminated
    have ends : rest = [] := terminated.rest_eq_nil (by
      rw [Function.isTerminator, found]
      cases instr <;> first | rfl | contradiction)
    have edge : dest ∈ f.successors x.block :=
      List.mem_flatMap.mpr ⟨id', by simp [split], by rw [targetsOf, found]; exact target⟩
    intro passed
    have passed := Passed.unjump passed edge
    rw [split, ends] at passed
    by_cases here : id' = id
    · subst here
      obtain ⟨_, same, _⟩ := leaves _ _ _ _ _ before next acts
      contradiction
    · have read : ∀ operand, (x.landing dest).read operand = x.read operand := fun operand => by
        cases operand <;> rfl
      rw [read, read]
      exact ih (passed.unstep (Ne.symm here))

/-- What an instruction is known to compute is equal to its result. -/
theorem WellFormed.holds_computed (wellFormed : f.WellFormed) {kind : Kind} {instr : Instr}
    (usable : f.Usable block id (value, kind)) (member : id ∈ f.blockInsts block) (found : f.instr? id = some instr)
    (harmless : instr.isPure = true) (plain : instr.isSlot = false)
    (computes : ∀ trail done rest x result, f.Reached trail done x → x.block = block → x.rest = id :: rest →
      x.Computes instr result → x.read value = .ok result) : f.Holds id value := by
  refine wellFormed.holds usable fun trail done rest x action reached next acts => ?_
  have lies := reached.lies wellFormed
  obtain ⟨instr', split, found', performs⟩ := lies.performs next acts
  cases found.symm.trans found'
  cases performs with
  | compute computed =>
    have here : x.block = block := wellFormed.apart (by simp [split]) member
    have inside : id < x.values.size := by
      rw [lies.values]
      exact wellFormed.inRange id (wellFormed.live member)
    rw [computes trail done rest x _ reached here next computed]
    exact ⟨_, rfl, by simp [Frame.read, Frame.setValue, inside]⟩
  | _ => contradiction

/-- What can be used at an instruction can be used wherever that instruction's result can. -/
theorem WellFormed.usable_trans (wellFormed : f.WellFormed) {source other : Nat} {kind kind' : Kind}
    (usable : f.Usable block id (.inst source, kind)) (older : f.Usable other source (value, kind')) :
    f.Usable block id (value, kind') := by
  cases value with
  | const value => exact older
  | param index => exact older
  | undef => exact older
  | inst first =>
    obtain ⟨_, _, done, rest, split, passed⟩ := usable
    obtain ⟨kinds, live, precedes⟩ := older
    exact ⟨kinds, live, done, rest, split, wellFormed.passed_trans split passed precedes⟩

theorem Equation.trans (wellFormed : f.WellFormed) {source : Nat} (first : f.Equation id (.inst source))
    (second : f.Equation source value) : f.Equation id value := by
  obtain ⟨block, member, usable⟩ := first.usable
  obtain ⟨other, _, usable'⟩ := second.usable
  refine ⟨first.kind, ⟨block, member, wellFormed.usable_trans usable usable'⟩, ?_⟩
  intro trail done x reached passed
  have lies := reached.lies wellFormed
  rw [second.holds trail done x reached (wellFormed.passed_trans lies.split passed usable.2.2)]
  exact first.holds trail done x reached passed

/-- What can be used at an instruction has been passed before it. -/
theorem WellFormed.fits (wellFormed : f.WellFormed) (here : f.blockInsts block = done ++ id :: rest)
    {input : Operand × Kind} (usable : f.Usable block id input) :
    f.Fits (fun source => source ∈ f.liveInsts ∧ f.Passed source block done) input := by
  refine Fits.mono usable rfl (fun _ _ found => found) ?_
  rintro source ⟨live, done', rest', split, passed⟩
  have unique := wellFormed.once block
  rw [here] at split unique
  rw [(position_unique unique split).1]
  exact ⟨live, passed⟩

theorem Means.refl (f : Function) (value : Operand) : f.Means value value := .inl rfl

theorem Means.trans (wellFormed : f.WellFormed) {first second third : Operand} (one : f.Means first second)
    (two : f.Means second third) : f.Means first third := by
  rcases one with rfl | ⟨id, rfl, equation⟩
  · exact two
  · rcases two with rfl | ⟨source, rfl, equation'⟩
    · exact .inr ⟨id, rfl, equation⟩
    · exact .inr ⟨id, rfl, equation.trans wellFormed equation'⟩

/-- Two operands of the same meaning read the same where the first can be used. -/
theorem Means.read {other : Operand} {kind : Kind} (means : f.Means value other)
    (fits : f.Fits (fun source => source ∈ f.liveInsts ∧ f.Passed source x.block done) (value, kind))
    (reached : f.Reached trail done x) : x.read other = x.read value := by
  rcases means with rfl | ⟨id, rfl, equation⟩
  · rfl
  · exact equation.holds trail done x reached fits.2.2

/-- Where an operand can be used, so can others of the same meaning. -/
theorem Means.usable (wellFormed : f.WellFormed) {other : Operand} {kind : Kind} (means : f.Means value other)
    (usable : f.Usable block id (value, kind)) : f.Usable block id (other, kind) := by
  rcases means with rfl | ⟨source, rfl, equation⟩
  · exact usable
  · obtain ⟨_, _, older⟩ := equation.usable
    obtain rfl : kind = .real := Option.some.inj (usable.1.symm.trans equation.kind)
    exact wellFormed.usable_trans usable older

/-- Operands may be exchanged for others of the same meaning everywhere. -/
theorem WellFormed.careful (wellFormed : f.WellFormed) {change : Operand → Operand}
    (means : ∀ operand, f.Means operand (change operand)) : f.Careful change [] := by
  refine ⟨fun id gone => by contradiction, fun block id member _ input asked => ?_⟩
  obtain ⟨operand, kind⟩ := input
  have usable := wellFormed.operands block (wellFormed.mem_layout_of_mem member) id member _ asked
  refine ⟨(means operand).usable wellFormed usable, ?_, fun _ _ => List.not_mem_nil, ?_⟩
  · rintro rfl
    rcases means operand with same | ⟨source, same, equation⟩
    · exact same
    · subst same
      cases usable.1.symm.trans equation.kind
  · rintro trail done rest x reached rfl next
    have split := (reached.lies wellFormed).split
    rw [next] at split
    exact (means operand).read (wellFormed.fits split usable) reached

theorem rewrites_replaceAllUses (f : Function) (id : Nat) (value : Operand) :
    f.Rewrites (f.replaceAllUses id value) (Operand.replace id value) [] := by
  refine ⟨f.kept_replaceAllUses id value, fun other => ?_, fun block => ?_⟩
  · simp only [instr?, inst?, replaceAllUses, Array.getElem?_map]
    cases f.insts[other]? <;> rfl
  · exact (List.filter_eq_self.mpr fun _ _ => rfl).symm

theorem Equation.means (equation : f.Equation id value) (operand : Operand) :
    f.Means operand (Operand.replace id value operand) := by
  unfold Operand.replace
  split
  · next same => exact .inr ⟨id, same, equation⟩
  · exact .refl f operand

theorem WellFormed.replaceAllUses (wellFormed : f.WellFormed) (equation : f.Equation id value) :
    f.Improves (f.replaceAllUses id value) :=
  (rewrites_replaceAllUses f id value).improves (wellFormed.careful equation.means) wellFormed

theorem Improves.refl (wellFormed : f.WellFormed) : f.Improves f :=
  (Rewrites.refl f).improves (wellFormed.careful (.refl f)) wellFormed

end Kaleidoscope.Flow.Function
