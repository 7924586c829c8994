import Kaleidoscope.Proofs.Flow.WellFormed

/-!
Dominance in well-formed functions is a strict order on the positions that can be reached.
-/

namespace Kaleidoscope.Flow.Function

/-- An instruction has one position in a list without repetitions. -/
theorem position_unique {id : Nat} {done rest done' rest' : List Nat} (unique : (done ++ id :: rest).Nodup)
    (same : done ++ id :: rest = done' ++ id :: rest') : done = done' ∧ rest = rest' := by
  induction done generalizing done' with
  | nil =>
    cases done' with
    | nil => exact ⟨rfl, (List.cons.inj same).2⟩
    | cons first done' =>
      obtain ⟨_, others⟩ := List.cons.inj same
      rw [others] at unique
      simp at unique
  | cons first done ih =>
    cases done' with
    | nil =>
      obtain ⟨head, _⟩ := List.cons.inj same
      simp [head] at unique
    | cons first' done' =>
      obtain ⟨head, others⟩ := List.cons.inj same
      obtain ⟨early, late⟩ := ih (List.nodup_cons.mp unique).2 others
      exact ⟨by rw [head, early], late⟩

variable {f : Function}

namespace WellFormed

theorem mem_layout (wellFormed : f.WellFormed) (block : Nat) : block ∈ f.layout ↔ block < f.blocks.size := by
  rw [wellFormed.layout.mem_iff, List.mem_range]

theorem mem_layout_of_mem (wellFormed : f.WellFormed) {block id : Nat} (member : id ∈ f.blockInsts block) :
    block ∈ f.layout := by
  rw [wellFormed.mem_layout]
  rcases Nat.lt_or_ge block f.blocks.size with inside | outside
  · exact inside
  · simp [blockInsts, block?, outside] at member

theorem live (wellFormed : f.WellFormed) {block id : Nat} (member : id ∈ f.blockInsts block) : id ∈ f.liveInsts :=
  List.mem_flatMap.mpr ⟨block, wellFormed.mem_layout_of_mem member, member⟩

/-- No block has an instruction twice. -/
theorem once (wellFormed : f.WellFormed) (block : Nat) : (f.blockInsts block).Nodup := by
  cases insts : f.blockInsts block with
  | nil => exact .nil
  | cons id rest =>
    have here := wellFormed.mem_layout_of_mem (by rw [insts]; exact List.mem_cons_self : id ∈ f.blockInsts block)
    rw [← insts]
    exact (List.pairwise_flatMap.mp wellFormed.linkedOnce).1 block here

/-- No two blocks share an instruction. -/
theorem apart (wellFormed : f.WellFormed) {id first second : Nat} (one : id ∈ f.blockInsts first)
    (two : id ∈ f.blockInsts second) : first = second := by
  have different := (List.pairwise_flatMap.mp wellFormed.linkedOnce).2
  have pair := List.Pairwise.forall_of_forall_of_flip
    (R := fun a b => a ≠ b → id ∈ f.blockInsts a → id ∉ f.blockInsts b) (fun _ _ apart => absurd rfl apart)
    (different.imp fun disjoint _ inside inside' => disjoint id inside id inside' rfl)
    (different.imp fun disjoint _ inside inside' => disjoint id inside' id inside rfl)
    (wellFormed.mem_layout_of_mem one) (wellFormed.mem_layout_of_mem two)
  exact Decidable.byContradiction fun apart => pair apart one two

end WellFormed

/-- Two instructions that dominate each other cannot be reached. -/
theorem WellFormed.no_walk (wellFormed : f.WellFormed) {first second block other : Nat}
    {done rest done' rest' : List Nat} (here : f.blockInsts block = done ++ first :: rest)
    (there : f.blockInsts other = done' ++ second :: rest') (ahead : f.Passed second block done)
    (behind : f.Passed first other done') (trail : List Nat) : ¬ Walk f (block :: trail) := by
  induction size : trail.length using Nat.strongRecOn
    generalizing first second block other done rest done' rest' trail with
  | _ size ih =>
    subst size
    intro walk
    have member : first ∈ f.blockInsts block := by simp [here]
    have member' : second ∈ f.blockInsts other := by simp [there]
    rcases ahead trail walk with before | ⟨above, passed, found⟩
    · have same : block = other := wellFormed.apart (by simp [here, before]) member'
      subst same
      rcases behind trail walk with before' | ⟨above, passed, found⟩
      · -- Each of the two would stand before the other in one block.
        obtain ⟨early, late, split⟩ := List.append_of_mem before
        have unique := wellFormed.once block
        rw [here] at there unique
        rw [split, List.append_assoc, List.cons_append] at there unique
        obtain ⟨same, _⟩ := position_unique unique there
        rw [← same] at before'
        have twice := List.nodup_append.mp unique
        exact twice.2.2 first before' first (by simp) rfl
      · cases wellFormed.apart found member
        obtain ⟨earlier, walk', shorter, _⟩ := walk.before passed
        exact ih earlier.length shorter here there ahead behind earlier rfl walk'
    · cases wellFormed.apart found member'
      obtain ⟨earlier, walk', shorter, _⟩ := walk.before passed
      exact ih earlier.length shorter there here behind ahead earlier rfl walk'

/-- What dominates an instruction that has been passed has been passed. -/
theorem WellFormed.passed_trans (wellFormed : f.WellFormed) {first second block other : Nat} {done rest : List Nat}
    (here : f.blockInsts block = done ++ rest) (passed : f.Passed second block done)
    (precedes : f.Precedes first other second) : f.Passed first block done := by
  obtain ⟨done', rest', there, before⟩ := precedes
  have member : second ∈ f.blockInsts other := by simp [there]
  intro trail walk
  rcases passed trail walk with inside | ⟨above, passed, found⟩
  · have found : second ∈ f.blockInsts block := by simp [here, inside]
    cases wellFormed.apart found member
    obtain ⟨early, late, split⟩ := List.append_of_mem inside
    have unique := wellFormed.once block
    rw [here] at there unique
    rw [split, List.append_assoc, List.cons_append] at there unique
    obtain ⟨same, _⟩ := position_unique unique there
    refine (before trail walk).imp (fun inside' => ?_) fun found => found
    rw [split, same]
    exact List.mem_append_left _ inside'
  · cases wellFormed.apart found member
    obtain ⟨earlier, walk', _, subset⟩ := walk.before passed
    rcases before earlier walk' with inside | ⟨above', passed', found'⟩
    · exact .inr ⟨other, passed, by simp [there, inside]⟩
    · exact .inr ⟨above', subset above' (List.mem_cons_of_mem _ passed'), found'⟩

end Kaleidoscope.Flow.Function
