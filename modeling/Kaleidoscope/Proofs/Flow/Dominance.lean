import Kaleidoscope.Flow.Function

/-!
Ways through the blocks of a function. One instruction dominates another if every way from the entry to the other
passes it; along any way this relation never turns around.
-/

namespace Kaleidoscope.Flow.Function

def targetsOf (f : Function) (id : Nat) : List Nat :=
  match f.instr? id with
  | some instr => instr.targets
  | none => []

/-- The blocks that a block may branch to. -/
def successors (f : Function) (block : Nat) : List Nat := (f.blockInsts block).flatMap f.targetsOf

/-- A way from the entry, the block it has reached first. -/
inductive Walk (f : Function) : List Nat → Prop where
  | entry {block : Nat} (first : f.entry? = some block) : Walk f [block]
  | step {block next : Nat} {trail : List Nat} (walk : Walk f (block :: trail))
      (edge : next ∈ f.successors block) : Walk f (next :: block :: trail)

/-- Every way from the entry to `block`, and there through `done`, passes the instruction `source`. -/
def Passed (f : Function) (source block : Nat) (done : List Nat) : Prop :=
  ∀ trail, Walk f (block :: trail) → source ∈ done ∨ ∃ above ∈ trail, source ∈ f.blockInsts above

/-- The position of `source` dominates the position of `id` in `block`. -/
def Precedes (f : Function) (source block id : Nat) : Prop :=
  ∃ done rest, f.blockInsts block = done ++ id :: rest ∧ f.Passed source block done

section

variable {f : Function} {above block next source : Nat} {trail done : List Nat}

/-- A way to a block contains the ways to all blocks on it. -/
theorem Walk.back (walk : Walk f trail) (member : block ∈ trail) :
    ∃ earlier, Walk f (block :: earlier) ∧ (block :: earlier).length ≤ trail.length ∧
      ∀ other ∈ block :: earlier, other ∈ trail := by
  induction walk with
  | entry first =>
    cases List.mem_singleton.mp member
    exact ⟨[], .entry first, Nat.le_refl _, fun _ => id⟩
  | @step last next trail walk edge ih =>
    rcases List.mem_cons.mp member with same | member
    · subst same
      exact ⟨last :: trail, .step walk edge, Nat.le_refl _, fun _ => id⟩
    · obtain ⟨earlier, found, shorter, subset⟩ := ih member
      exact ⟨earlier, found, Nat.le_succ_of_le shorter,
        fun other inside => List.mem_cons_of_mem _ (subset other inside)⟩

theorem Walk.tail (walk : Walk f (next :: trail)) (nonempty : trail ≠ []) : Walk f trail := by
  cases walk with
  | entry _ => exact absurd rfl nonempty
  | step walk _ => exact walk

/-- A way that has been at a block contains a shorter way there. -/
theorem Walk.before (walk : Walk f (next :: trail)) (member : block ∈ trail) :
    ∃ earlier, Walk f (block :: earlier) ∧ earlier.length < trail.length ∧
      ∀ other ∈ block :: earlier, other ∈ trail :=
  (walk.tail (List.ne_nil_of_mem member)).back member

theorem Passed.mono {more : List Nat} (passed : f.Passed source block done)
    (kept : ∀ id ∈ done, id ∈ more) : f.Passed source block more :=
  fun trail walk => (passed trail walk).imp (kept source) id

/-- What has been passed after one more instruction is that instruction or had been passed before. -/
theorem Passed.unstep {id : Nat} (passed : f.Passed source block (done ++ [id])) (apart : source ≠ id) :
    f.Passed source block done := by
  intro trail walk
  refine (passed trail walk).imp (fun member => ?_) fun found => found
  simpa [apart] using member

/-- What has been passed at the start of a block had been passed at the end of every block before it. -/
theorem Passed.unjump (passed : f.Passed source next []) (edge : next ∈ f.successors block) :
    f.Passed source block (f.blockInsts block) := by
  intro trail walk
  obtain none | ⟨above, member, found⟩ := passed _ (walk.step edge)
  · contradiction
  · rcases List.mem_cons.mp member with same | member
    · exact .inl (same ▸ found)
    · exact .inr ⟨above, member, found⟩

/-- Blocks said to dominate each block, in a way that can be checked edge by edge. -/
structure Dominators (f : Function) (said : Nat → List Nat) : Prop where
  entry : ∀ block, f.entry? = some block → ∀ above ∈ said block, above = block
  edge : ∀ block, ∀ next ∈ f.successors block, ∀ above ∈ said next, above = next ∨ above ∈ said block

private theorem Dominators.on_walk {said : Nat → List Nat} (checked : Dominators f said)
    (walk : Walk f (block :: trail)) : ∀ above ∈ said block, above ∈ block :: trail := by
  generalize same : block :: trail = whole at walk
  induction walk generalizing block trail with
  | entry first =>
    cases same
    intro above member
    exact List.mem_singleton.mpr (checked.entry _ first above member)
  | step walk edge ih =>
    cases same
    intro above member
    rcases checked.edge _ _ edge above member with same | member
    · exact List.mem_cons.mpr (.inl same)
    · exact List.mem_cons_of_mem _ (ih rfl above member)

/-- All that stands in a dominating block has been passed. -/
theorem Dominators.passed {said : Nat → List Nat} (checked : Dominators f said) (member : above ∈ said block)
    (apart : above ≠ block) (found : source ∈ f.blockInsts above) : f.Passed source block done :=
  fun _ walk => .inr ⟨above, List.mem_of_ne_of_mem apart (checked.on_walk walk above member), found⟩

end

end Kaleidoscope.Flow.Function
