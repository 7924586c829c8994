import Kaleidoscope.Flow.Listing
import Kaleidoscope.Proofs.Token.Spelling
import Mathlib.Data.List.Nodup

/-!
The local names of a function. The search for a number that makes a name free comes to an end, whatever names are in
use, and no two things in a function get the same name.
-/

namespace Kaleidoscope.Flow

namespace Naming

/-- The search for a free name made from `hint` starts above `last` and stops at `number`, the first one that does. -/
structure Finds (hint : String) (used : List String) (last number : Nat) : Prop where
  above : last < number
  free : hint ++ toString number ∉ used
  skipped : ∀ other, last < other → other < number → hint ++ toString other ∈ used
  bound : number ≤ last + used.length + 1

private theorem numbered_injective (hint : String) {first second : Nat}
    (same : hint ++ toString first = hint ++ toString second) : first = second := by
  apply toString_injective
  simpa [String.ext_iff] using same

/-- Each turn of the search uses up a name, and each name stands for one number. -/
theorem finds_nextNumber (hint : String) (used : List String) (last : Nat) :
    Finds hint used last (nextNumber hint used last) := by
  induction used, last using nextNumber.induct hint with
  | case1 used last taken ih =>
    rw [nextNumber, if_pos taken]
    have positive := List.length_pos_of_mem taken
    have shorter := List.length_erase_of_mem taken
    have bound := ih.bound
    refine ⟨Nat.lt_of_succ_lt ih.above, fun member => ih.free ?_, fun other above below => ?_, by omega⟩
    · refine (List.mem_erase_of_ne fun same => ?_).mpr member
      exact Nat.ne_of_gt ih.above (numbered_injective hint same)
    · rcases Nat.lt_or_eq_of_le above with later | first
      · exact List.mem_of_mem_erase (ih.skipped other later below)
      · exact first ▸ taken
  | case2 used last free =>
    rw [nextNumber, if_neg free]
    exact ⟨Nat.lt_succ_self last, free, fun other above below => by omega, by omega⟩

variable (naming : Naming) (hint : String)

private theorem fresh_free : (naming.fresh hint).1 ∉ naming.used := by
  unfold fresh
  dsimp only
  generalize (if hint.isEmpty = true then "tmp" else hint) = stem
  split
  · exact (finds_nextNumber stem naming.used naming.last).free
  · next free => exact free

/-- The counter moves on at most as far as there are names in use, and one further. -/
theorem fresh_last : (naming.fresh hint).2.last ≤ naming.last + naming.used.length + 1 := by
  unfold fresh
  dsimp only
  generalize (if hint.isEmpty = true then "tmp" else hint) = stem
  split
  · exact (finds_nextNumber stem naming.used naming.last).bound
  · exact Nat.le_add_right_of_le (Nat.le_add_right _ _)

private theorem fresh_used : (naming.fresh hint).2.used = (naming.fresh hint).1 :: naming.used := by
  unfold fresh
  dsimp only
  generalize (if hint.isEmpty = true then "tmp" else hint) = stem
  split <;> rfl

end Naming

variable (naming : Naming) (hints : List (Local × String))

/-- What has been given out after all these names. -/
def Naming.after : Naming :=
  hints.foldl (fun naming hint => (naming.fresh hint.2).2) naming

/-- The counter grows no faster than the square of the number of names. -/
theorem Naming.last_after :
    (naming.after hints).last ≤ naming.last + hints.length * (naming.used.length + hints.length) := by
  induction hints generalizing naming with
  | nil => exact Nat.le_add_right _ _
  | cons first hints ih =>
    have moved := naming.fresh_last first.2
    have later := ih (naming.fresh first.2).2
    rw [naming.fresh_used, List.length_cons] at later
    have longer : (hints.length + 1) * (naming.used.length + (hints.length + 1)) =
        hints.length * (naming.used.length + 1 + hints.length) + (naming.used.length + 1 + hints.length) := by
      rw [Nat.succ_mul, Nat.add_comm hints.length 1, Nat.add_assoc]
    calc (naming.after (first :: hints)).last
      _ ≤ (naming.fresh first.2).2.last + hints.length * (naming.used.length + 1 + hints.length) := later
      _ ≤ naming.last + (hints.length + 1) * (naming.used.length + (hints.length + 1)) := by omega

private theorem assignNames_free : ∀ entry ∈ assignNames naming hints, entry.2 ∉ naming.used := by
  induction hints generalizing naming with
  | nil => exact List.forall_mem_nil _
  | cons first hints ih =>
    obtain ⟨item, hint⟩ := first
    refine List.forall_mem_cons.mpr ⟨naming.fresh_free hint, fun entry member inUse => ?_⟩
    apply ih (naming.fresh hint).2 entry member
    rw [naming.fresh_used]
    exact List.mem_cons_of_mem _ inUse

private theorem nodup_assignNames : ((assignNames naming hints).map Prod.snd).Nodup := by
  induction hints generalizing naming with
  | nil => exact .nil
  | cons first hints ih =>
    obtain ⟨item, hint⟩ := first
    refine List.nodup_cons.mpr ⟨fun member => ?_, ih (naming.fresh hint).2⟩
    obtain ⟨entry, later, same⟩ := List.mem_map.mp member
    apply assignNames_free (naming.fresh hint).2 hints entry later
    rw [naming.fresh_used, same]
    exact List.mem_cons_self

private theorem map_fst_assignNames : (assignNames naming hints).map Prod.fst = hints.map Prod.fst := by
  induction hints generalizing naming with
  | nil => rfl
  | cons first hints ih => exact congrArg (first.1 :: ·) (ih (naming.fresh first.2).2)

namespace Function

variable (f : Function)

/-- What there is a name for: the parameters, the blocks of the layout, and the results of their instructions. -/
def Names : Local → Prop
  | .param index => index < f.params.length
  | .block id => id ∈ f.layout ∧ f.block? id ≠ none
  | .inst id => id ∈ f.liveInsts ∧ ∃ instr, f.instr? id = some instr ∧ instr.producesValue = true

private theorem mem_blockHints (item : Local) (block : Nat) : item ∈ (f.blockHints block).map Prod.fst ↔
    .block block = item ∧ f.block? block ≠ none ∨
      ∃ id ∈ f.blockInsts block, .inst id = item ∧ ∃ instr, f.instr? id = some instr ∧ instr.producesValue = true := by
  unfold blockHints blockInsts instr?
  cases f.block? block with
  | none => simp
  | some found =>
    simp only [List.map_cons, List.mem_cons, List.map_filterMap, List.mem_filterMap]
    refine or_congr (by simp [eq_comm]) (exists_congr fun id => and_congr_right fun _ => ?_)
    cases f.inst? id with
    | none => simp
    | some inst => by_cases produces : inst.instr.producesValue = true <;> simp [produces]

/-- Names are given to what there is a name for, and to nothing else. -/
theorem mem_localNames (item : Local) : item ∈ f.localNames.map Prod.fst ↔ f.Names item := by
  rw [localNames, map_fst_assignNames, nameHints, List.map_append, List.mem_append, List.map_flatMap, List.mem_flatMap]
  simp only [mem_blockHints]
  cases item with
  | param index => simp [Names, List.mem_iff_getElem?, ← Option.isSome_iff_exists]
  | block id => simp [Names, and_left_comm]
  | inst id =>
    simp only [Names, liveInsts, List.mem_flatMap]
    constructor
    · rintro (param | ⟨block, placed, ⟨same, _⟩ | ⟨_, member, ⟨⟩, produces⟩⟩)
      · simp at param
      · contradiction
      · exact ⟨⟨block, placed, member⟩, produces⟩
    · rintro ⟨⟨block, placed, member⟩, produces⟩
      exact .inr ⟨block, placed, .inr ⟨id, member, rfl, produces⟩⟩

private theorem mem_of_lookup_localNames {item : Local} {name : String} (found : f.localNames.lookup item = some name) :
    (item, name) ∈ f.localNames := by
  obtain ⟨front, back, same, _⟩ := List.lookup_eq_some_iff.mp found
  rw [same]
  simp

/-- In every function the parameters, the blocks of the layout and the results of their instructions have names, which
are all different, whatever hints they are made from; and whatever names are in use, the search for one ends. With
fewer than 2 ^ 32 names the counter stays within a machine word. -/
theorem local_names_distinct :
    (∀ item, f.localNames.lookup item ≠ none ↔ f.Names item) ∧
      (∀ left right name, f.localNames.lookup left = some name → f.localNames.lookup right = some name →
        left = right) ∧
      (∀ hint used last, Naming.Finds hint used last (Naming.nextNumber hint used last)) ∧
      (f.nameHints.length < UInt32.size → (Naming.after ⟨[], 0⟩ f.nameHints).last < UInt64.size) := by
  refine ⟨fun item => ?_, fun left right name first second => ?_, Naming.finds_nextNumber, fun few => ?_⟩
  · rw [← mem_localNames, ne_eq, List.lookup_eq_none_iff]
    simp
  · have distinct : (f.localNames.map Prod.snd).Nodup := nodup_assignNames _ _
    have same := List.inj_on_of_nodup_map distinct (f.mem_of_lookup_localNames first)
      (f.mem_of_lookup_localNames second) rfl
    exact congrArg Prod.fst same
  · calc (Naming.after ⟨[], 0⟩ f.nameHints).last
      _ ≤ 0 + f.nameHints.length * (0 + f.nameHints.length) := Naming.last_after ⟨[], 0⟩ f.nameHints
      _ = f.nameHints.length * f.nameHints.length := by rw [Nat.zero_add, Nat.zero_add]
      _ < UInt32.size * UInt32.size := Nat.mul_lt_mul'' few few
      _ = UInt64.size := rfl

/-- Hints and names made from hints can meet, in either order. -/
example : (assignNames ⟨[], 0⟩ [(.param 0, "a"), (.param 1, "a"), (.param 2, "a1"), (.param 3, "a3"),
    (.param 4, "a")]).map Prod.snd = ["a", "a1", "a12", "a3", "a4"] := by
  decide +kernel

end Function

end Kaleidoscope.Flow
