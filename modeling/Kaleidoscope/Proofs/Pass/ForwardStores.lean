import Kaleidoscope.Proofs.Pass.Equation

/-!
Forwarding stores: a load yields what was last stored to its slot in the same block, and that is still at hand
wherever the load dominates.
-/

namespace Kaleidoscope.Flow

open Kaleidoscope.Machine

namespace Function

variable {f : Function} {trail done rest : List Nat} {x y : Frame} {id block slot : Nat} {value other : Operand}

/-- Where `done` has been carried out in `block`, the slot holds the value. -/
structure Known (f : Function) (block : Nat) (done : List Nat) (slot : Nat) (value : Operand) : Prop where
  passed : f.Passed slot block done
  fits : f.Fits (fun source => source ∈ f.liveInsts ∧ f.Passed source block done) (value, .real)
  same : ∀ trail x, f.Reached trail done x → x.block = block → x.read value = .ok (x.slots.read slot)

/-- What came before the last instruction of a block that has been carried out. -/
theorem Reached.last (reached : f.Reached trail (done ++ [id]) y) :
    ∃ x rest, f.Reached trail done x ∧ x.rest = id :: rest ∧
      (x.Acts (.move y) ∨ ∃ next waiting callee args value, x.Acts (.call next waiting callee args) ∧
        y = next.setValue waiting value) := by
  generalize whole : done ++ [id] = all at reached
  cases reached with
  | start first => simp at whole
  | @move _ _ rest x _ _ before next acts =>
    obtain ⟨rfl, same⟩ := List.append_inj' whole rfl
    cases same
    exact ⟨x, rest, before, next, .inl acts⟩
  | @call _ _ rest x _ _ _ _ _ before next acts value =>
    obtain ⟨rfl, same⟩ := List.append_inj' whole rfl
    cases same
    exact ⟨x, rest, before, next, .inr ⟨_, _, _, _, value, acts, rfl⟩⟩
  | jump before acts => simp at whole

/-- Only its slot instruction and stores to it change what a slot holds. -/
theorem slots_of_move {instr : Instr} (performs : x.Performs id rest instr (.move y)) (apart : slot ≠ id)
    (keeps : ∀ value, instr ≠ .store value (.inst slot)) : y.slots.read slot = x.slots.read slot := by
  cases performs with
  | compute computes => rfl
  | slot => simp only [Frame.writeSlot, Slots.read_write, if_neg apart]
  | @store operand target value reads =>
    have other : slot ≠ target := fun same => keeps operand (by rw [same])
    simp only [Frame.writeSlot, Slots.read_write, if_neg other]

/-- What is known stays known past instructions that do not store to the slot. -/
theorem Known.step (wellFormed : f.WellFormed) (known : f.Known block done slot value)
    (keeps : ∀ other, f.instr? id ≠ some (.store other (.inst slot))) : f.Known block (done ++ [id]) slot value := by
  have kept : ∀ source ∈ done, source ∈ done ++ [id] := fun _ => List.mem_append_left _
  refine ⟨known.passed.mono kept, ?_, ?_⟩
  · exact known.fits.mono rfl (fun _ _ found => found) fun source usable => ⟨usable.1, usable.2.mono kept⟩
  · intro trail y reached here
    obtain ⟨x, rest, before, next, came⟩ := reached.last
    have lies := before.lies wellFormed
    rcases came with acts | ⟨_, waiting, callee, args, result, acts, rfl⟩
    · obtain ⟨instr, split, found, performs⟩ := lies.performs next acts
      obtain ⟨moves, _⟩ := performs.moves
      obtain rfl : x.block = block := moves.block.symm.trans here
      have fresh := wellFormed.not_passed lies next
      have unread : value ≠ .inst id := by
        rintro rfl
        exact fresh known.fits.2.2
      rw [moves.read unread, slots_of_move performs]
      · exact known.same trail x before rfl
      · rintro rfl
        exact fresh known.passed
      · rintro other rfl
        exact keeps other found
    · obtain ⟨instr, split, found, performs⟩ := lies.performs next acts
      obtain ⟨rfl, rfl, _⟩ := performs.calls
      obtain rfl : x.block = block := here
      have unread : value ≠ .inst waiting := by
        rintro rfl
        exact wellFormed.not_passed lies next known.fits.2.2
      rw [(Frame.Moves.setValue x waiting rest result).read unread]
      exact known.same trail x before rfl

/-- A slot holds what has just been stored to it. -/
theorem Known.store (wellFormed : f.WellFormed) (here : f.blockInsts block = done ++ id :: rest)
    (found : f.instr? id = some (.store value (.inst slot))) (means : f.Means value other) :
    f.Known block (done ++ [id]) slot other := by
  have kept : ∀ source ∈ done, source ∈ done ++ [id] := fun _ => List.mem_append_left _
  have member : id ∈ f.blockInsts block := by simp [here]
  have operands := wellFormed.operands block (wellFormed.mem_layout_of_mem member) id member
  simp only [inputsOf, found, Instr.inputs, List.forall_mem_cons] at operands
  obtain ⟨stored, place, _⟩ := operands
  have held := wellFormed.fits here (means.usable wellFormed stored)
  refine ⟨(wellFormed.fits here place).2.2.mono kept, ?_, ?_⟩
  · exact held.mono rfl (fun _ _ found => found) fun source usable => ⟨usable.1, usable.2.mono kept⟩
  · intro trail y reached there
    obtain ⟨x, rest, before, next, came⟩ := reached.last
    have lies := before.lies wellFormed
    rcases came with acts | ⟨_, waiting, callee, args, result, acts, rfl⟩
    · obtain ⟨instr, split, found', performs⟩ := lies.performs next acts
      cases found.symm.trans found'
      obtain ⟨moves, _⟩ := performs.moves
      obtain rfl : x.block = block := moves.block.symm.trans there
      have unread : other ≠ .inst id := by
        rintro rfl
        exact wellFormed.not_passed lies next held.2.2
      rw [moves.read unread, means.read (wellFormed.fits here stored) before]
      cases performs with
      | compute computes => cases computes
      | store reads => simp only [Frame.writeSlot, Slots.read_write, if_true, reads]
    · obtain ⟨instr, split, found', performs⟩ := lies.performs next acts
      cases found.symm.trans found'
      cases performs

/-- A load yields what is known of its slot. -/
theorem Known.equation (wellFormed : f.WellFormed) (here : f.blockInsts block = done ++ id :: rest)
    (found : f.instr? id = some (.load (.inst slot))) (known : f.Known block done slot value) :
    f.Equation id value := by
  have member : id ∈ f.blockInsts block := by simp [here]
  have usable : f.Usable block id (value, .real) :=
    known.fits.mono rfl (fun _ _ found => found) fun source ⟨live, passed⟩ => ⟨live, done, rest, here, passed⟩
  refine ⟨by simp [kindOf?, found, Instr.kind?], ⟨block, member, usable⟩, ?_⟩
  refine wellFormed.holds_computed usable member found rfl rfl ?_
  rintro trail done' rest' x result reached rfl next computes
  have split := (reached.lies wellFormed).split
  rw [next, here] at split
  obtain ⟨rfl, rfl⟩ := position_unique (here ▸ wellFormed.once x.block) split
  cases computes
  exact known.same trail x reached rfl

/-- Everything that stands in for something else is equal to it. -/
def Sound (f : Function) (replacements : Replacements) : Prop :=
  ∀ entry ∈ replacements, f.Equation entry.1 entry.2

theorem Sound.means (wellFormed : f.WellFormed) {replacements : Replacements} (sound : f.Sound replacements)
    (value : Operand) : f.Means value (replacements.resolve value) := by
  induction replacements, value using Replacements.resolve.induct with
  | case1 replacements id next found ih =>
    rw [Replacements.resolve]
    split
    · next other found' =>
      cases found.symm.trans found'
      have equation := sound _ (mem_of_lookup found)
      refine .trans wellFormed (.inr ⟨id, rfl, equation⟩) (ih fun entry member => ?_)
      exact sound entry (List.mem_filter.mp member).1
    · next missing =>
      rw [found] at missing
      contradiction
  | case2 replacements id missing =>
    rw [Replacements.resolve]
    split
    · next other found =>
      rw [missing] at found
      contradiction
    · exact .refl f _
  | case3 replacements value other =>
    rw [Replacements.resolve.eq_2 _ _ other]
    exact .refl f value

/-- What has been found out on the way through a block. -/
structure Right (f : Function) (block : Nat) (done : List Nat) (state : Forwarding) : Prop where
  known : ∀ slot value, state.known.lookup slot = some value → f.Known block done slot value
  replaced : f.Sound state.replaced

/-- One instruction further, everything found out is right. -/
theorem Right.forwardInst (wellFormed : f.WellFormed) {state : Forwarding}
    (here : f.blockInsts block = done ++ id :: rest) (right : f.Right block done state) :
    f.Right block (done ++ [id]) (f.forwardInst state id) := by
  have stays : (∀ value slot, f.instr? id ≠ some (.store value (.inst slot))) →
      ∀ slot value, state.known.lookup slot = some value → f.Known block (done ++ [id]) slot value :=
    fun keeps slot value held => (right.known slot value held).step wellFormed fun other => keeps other slot
  unfold Function.forwardInst
  split
  · next value slot found =>
    refine ⟨fun slot' value' held => ?_, right.replaced⟩
    rw [List.lookup_cons] at held
    split at held
    · next same =>
      cases held
      rw [eq_of_beq same]
      exact .store wellFormed here found (right.replaced.means wellFormed value)
    · next differs =>
      refine (right.known slot' value' held).step wellFormed fun other stored => ?_
      rw [found] at stored
      cases stored
      simp at differs
  · next slot found =>
    split
    · next value held =>
      refine ⟨stays fun _ _ stored => by simp [found] at stored, ?_⟩
      exact List.forall_mem_cons.mpr ⟨(right.known slot value held).equation wellFormed here found, right.replaced⟩
    · exact ⟨stays fun _ _ stored => by simp [found] at stored, right.replaced⟩
  · next noStore _ => exact ⟨stays noStore, right.replaced⟩

theorem Right.foldl (wellFormed : f.WellFormed) {state : Forwarding} (here : f.blockInsts block = done ++ rest)
    (right : f.Right block done state) : f.Right block (done ++ rest) (rest.foldl f.forwardInst state) := by
  induction rest generalizing done state with
  | nil =>
    rw [List.append_nil]
    exact right
  | cons id rest ih =>
    rw [← List.singleton_append, ← List.append_assoc] at here ⊢
    exact ih here (right.forwardInst wellFormed (by simpa using here))

private theorem sound_forwardBlock (wellFormed : f.WellFormed) {replaced : Replacements} (sound : f.Sound replaced)
    (block : Nat) : f.Sound (f.forwardBlock replaced block) := by
  have right : f.Right block [] ⟨[], replaced⟩ := ⟨fun _ _ held => by contradiction, sound⟩
  exact (right.foldl wellFormed rfl).replaced

theorem sound_forwardable (wellFormed : f.WellFormed) : f.Sound f.forwardable := by
  have all : ∀ (blocks : List Nat) (replaced : Replacements), f.Sound replaced →
      f.Sound (blocks.foldl f.forwardBlock replaced) := by
    intro blocks
    induction blocks with
    | nil => exact fun _ sound => sound
    | cons block blocks ih => exact fun replaced sound => ih _ (sound_forwardBlock wellFormed sound block)
  exact all f.layout [] fun _ none => by contradiction

/-- Replacing one thing after the other is a single rewriting. -/
theorem Rewrites.replaceAll (wellFormed : f.WellFormed) {g : Function} {change : Operand → Operand}
    {replacements : Replacements} (sound : f.Sound replacements) (rewrites : f.Rewrites g change [])
    (means : ∀ operand, f.Means operand (change operand)) :
    ∃ change, f.Rewrites (g.replaceAll replacements) change [] ∧ ∀ operand, f.Means operand (change operand) := by
  induction replacements generalizing g change with
  | nil => exact ⟨change, rewrites, means⟩
  | cons entry replacements ih =>
    obtain ⟨equation, others⟩ := List.forall_mem_cons.mp sound
    exact ih others (rewrites.trans (rewrites_replaceAllUses g entry.1 entry.2)) fun operand =>
      (means operand).trans wellFormed (equation.means _)

theorem sound_resolve (wellFormed : f.WellFormed) {replacements : Replacements} (sound : f.Sound replacements) :
    f.Sound (replacements.map fun entry => (entry.1, replacements.resolve entry.2)) := by
  rintro entry member
  obtain ⟨⟨id, value⟩, held, rfl⟩ := List.mem_map.mp member
  have equation := sound _ held
  rcases sound.means wellFormed value with same | ⟨source, rfl, further⟩
  · simpa only [same] using equation
  · exact equation.trans wellFormed further

theorem WellFormed.forwardStores (wellFormed : f.WellFormed) :
    f.Improves f.forwardStores.1 := by
  have sound := sound_resolve wellFormed (sound_forwardable wellFormed)
  obtain ⟨change, rewrites, means⟩ := (Rewrites.refl f).replaceAll wellFormed sound (.refl f)
  exact rewrites.improves (wellFormed.careful means) wellFormed

end Function

end Kaleidoscope.Flow
