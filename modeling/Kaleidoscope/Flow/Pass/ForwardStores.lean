import Kaleidoscope.Flow.Function

/-!
Replaces a load by the value last stored to the same slot earlier in the same block.
-/

namespace Kaleidoscope.Flow

/-- Values that stand in for the results of instructions. -/
abbrev Replacements := List (Nat × Operand)

theorem mem_of_lookup {α : Type} {entries : List (Nat × α)} {key : Nat} {value : α}
    (found : entries.lookup key = some value) : (key, value) ∈ entries := by
  induction entries with
  | nil => simp at found
  | cons entry rest ih =>
    obtain ⟨other, held⟩ := entry
    rw [List.lookup_cons] at found
    by_cases same : key = other
    · subst other
      simp_all
    · have apart : (key == other) = false := by simpa using same
      simp only [apart] at found
      exact List.mem_cons_of_mem _ (ih found)

namespace Replacements

def without (replacements : Replacements) (id : Nat) : Replacements :=
  replacements.filter (·.1 != id)

theorem length_without_lt {replacements : Replacements} {id : Nat} {value : Operand}
    (found : replacements.lookup id = some value) :
    (replacements.without id).length < replacements.length :=
  List.length_filter_lt_length_iff_exists.mpr ⟨_, mem_of_lookup found, by simp⟩

/-- Follows replacements until nothing replaces the value. Each is followed once. -/
def resolve (replacements : Replacements) (value : Operand) : Operand :=
  match value with
  | .inst id =>
    match _found : replacements.lookup id with
    | some next => resolve (replacements.without id) next
    | none => .inst id
  | other => other
termination_by replacements.length
decreasing_by exact length_without_lt ‹_›

end Replacements

/-- What is known while walking through a block: the value of each slot stored to since the block began, and
the loads replaced so far. -/
structure Forwarding where
  known : Replacements
  replaced : Replacements

namespace Function

def forwardInst (f : Function) (state : Forwarding) (id : Nat) : Forwarding :=
  match f.instr? id with
  | some (.store value (.inst slot)) =>
    { state with known := (slot, state.replaced.resolve value) :: state.known }
  | some (.load (.inst slot)) =>
    match state.known.lookup slot with
    | some value => { state with replaced := (id, value) :: state.replaced }
    | none => state
  | _ => state

def forwardBlock (f : Function) (replaced : Replacements) (block : Nat) : Replacements :=
  ((f.blockInsts block).foldl f.forwardInst ⟨[], replaced⟩).replaced

/-- The loads whose value is known, the latest first. -/
def forwardable (f : Function) : Replacements := f.layout.foldl f.forwardBlock []

def replaceAll (f : Function) (replacements : Replacements) : Function :=
  replacements.foldl (fun f entry => f.replaceAllUses entry.1 entry.2) f

def forwardStores (f : Function) : Function × Bool :=
  let replaced := f.forwardable
  (f.replaceAll (replaced.map fun entry => (entry.1, replaced.resolve entry.2)), !replaced.isEmpty)

end Function

end Kaleidoscope.Flow
