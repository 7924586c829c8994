import Kaleidoscope.Proofs.Lowering.Sequenced
import Kaleidoscope.Proofs.Pass.Chronology
import Kaleidoscope.Proofs.Pass.Optimized

/-!
One run of the standard passes leaves nothing to do for another. Forwarding and folding leave the instructions they
replace in place but unused, wherever they stand, so that removing dead code takes out all of them.
-/

namespace Kaleidoscope

open Kaleidoscope.Flow

namespace Flow

namespace Function

/-- No instruction uses the result of `id`, whether in a block or not. -/
def Unused (f : Function) (id : Nat) : Prop := ∀ user, .inst id ∉ f.operandsOf user

/-- There is a store to `slot` among `insts`. -/
def StoresTo (f : Function) (insts : List Nat) (slot : Nat) : Prop :=
  ∃ store ∈ insts, ∃ value, f.instr? store = some (.store value (.inst slot))

/-- The load `id` comes after a store to its slot among `insts`. -/
def Follows (f : Function) (insts : List Nat) (id : Nat) : Prop :=
  ∃ store slot value, [store, id].Sublist insts ∧ f.instr? store = some (.store value (.inst slot)) ∧
    f.instr? id = some (.load (.inst slot))

/-- The load `id` comes after a store to its slot in its block. -/
def Forwards (f : Function) (id : Nat) : Prop := ∃ block ∈ f.layout, f.Follows (f.blockInsts block) id

/-- There is nothing to do for any of the standard passes. -/
structure Settled (f : Function) : Prop where
  loads : ∀ id, ¬ f.Forwards id
  constants : ∀ id ∈ f.liveInsts, f.constantResult? id = none
  alive : f.deadInsts = []

variable {f g : Function} {change : Operand → Operand} {done rest : List Nat} {id other slot : Nat} {value : Operand}

section Forwarding

private theorem pair_sublist_concat {first second last : Nat} {insts : List Nat} :
    [first, second].Sublist (insts ++ [last]) ↔ [first, second].Sublist insts ∨ first ∈ insts ∧ second = last := by
  constructor
  · intro inside
    obtain ⟨front, back, same, early, late⟩ := List.sublist_append_iff.mp inside
    rcases List.sublist_singleton.mp late with rfl | rfl
    · rw [List.append_nil] at same
      exact .inl (same ▸ early)
    · obtain ⟨rfl, ends⟩ := List.append_inj' (show [first] ++ [second] = front ++ [last] from same) rfl
      exact .inr ⟨List.singleton_sublist.mp early, List.head_eq_of_cons_eq ends⟩
  · rintro (inside | ⟨member, rfl⟩)
    · exact inside.trans (List.sublist_append_left _ _)
    · exact (List.singleton_sublist.mpr member).append_right [second]

private theorem storesTo_concat : f.StoresTo (done ++ [id]) slot ↔
    f.StoresTo done slot ∨ ∃ value, f.instr? id = some (.store value (.inst slot)) := by
  simp only [StoresTo, List.mem_append, List.mem_singleton, or_and_right, exists_or, exists_eq_left]

private theorem follows_concat : f.Follows (done ++ [id]) other ↔
    f.Follows done other ∨ other = id ∧ ∃ slot, f.instr? id = some (.load (.inst slot)) ∧ f.StoresTo done slot := by
  constructor
  · rintro ⟨store, slot, value, inside, stores, loads⟩
    rcases pair_sublist_concat.mp inside with earlier | ⟨member, rfl⟩
    · exact .inl ⟨store, slot, value, earlier, stores, loads⟩
    · exact .inr ⟨rfl, slot, loads, store, member, value, stores⟩
  · rintro (⟨store, slot, value, inside, facts⟩ | ⟨rfl, slot, loads, store, member, value, stores⟩)
    · exact ⟨store, slot, value, pair_sublist_concat.mpr (.inl inside), facts⟩
    · exact ⟨store, slot, value, pair_sublist_concat.mpr (.inr ⟨member, rfl⟩), stores, loads⟩

/-- What is found out on the way through `done`: the slots stored to and the loads after them. -/
structure Noted (f : Function) (before : Replacements) (done : List Nat) (state : Forwarding) : Prop where
  known : ∀ slot, state.known.lookup slot ≠ none ↔ f.StoresTo done slot
  replaced : ∀ id, id ∈ state.replaced.map Prod.fst ↔ id ∈ before.map Prod.fst ∨ f.Follows done id

theorem Noted.forwardInst {before : Replacements} {state : Forwarding} (noted : f.Noted before done state) (id : Nat) :
    f.Noted before (done ++ [id]) (f.forwardInst state id) := by
  have noLoad : (∀ slot, f.instr? id ≠ some (.load (.inst slot))) →
      ∀ other, other ∈ state.replaced.map Prod.fst ↔ other ∈ before.map Prod.fst ∨ f.Follows (done ++ [id]) other := by
    intro noLoad other
    rw [noted.replaced, follows_concat]
    simp [noLoad]
  have noStore : (∀ value slot, f.instr? id ≠ some (.store value (.inst slot))) →
      ∀ slot, state.known.lookup slot ≠ none ↔ f.StoresTo (done ++ [id]) slot := by
    intro noStore slot
    rw [noted.known, storesTo_concat]
    simp [noStore]
  unfold Function.forwardInst
  split
  · next value slot found =>
    refine ⟨fun slot' => ?_, noLoad (by simp [found])⟩
    rw [storesTo_concat, ← noted.known, List.lookup_cons]
    by_cases same : slot' = slot
    · simp [same, found]
    · have apart : (slot' == slot) = false := by simpa using same
      simp [apart, found, Ne.symm same]
  · next slot found =>
    have noStore := noStore (by simp [found])
    have loads : f.StoresTo done slot ↔ ∃ value, state.known.lookup slot = some value := by
      rw [← noted.known, Option.ne_none_iff_exists']
    split
    · next value held =>
      refine ⟨noStore, fun other => ?_⟩
      have stores := loads.mpr ⟨value, held⟩
      simp only [List.map_cons, List.mem_cons, noted.replaced, follows_concat, found]
      grind
    · next missing =>
      refine ⟨noStore, fun other => ?_⟩
      have stores : ¬ f.StoresTo done slot := by simp [loads, missing]
      rw [noted.replaced, follows_concat, found]
      grind
  · next notStore notLoad => exact ⟨noStore notStore, noLoad notLoad⟩

theorem Noted.foldl {before : Replacements} {state : Forwarding} (noted : f.Noted before done state) (rest : List Nat) :
    f.Noted before (done ++ rest) (rest.foldl f.forwardInst state) := by
  induction rest generalizing done state with
  | nil =>
    rw [List.append_nil]
    exact noted
  | cons id rest ih =>
    rw [← List.singleton_append, ← List.append_assoc]
    exact ih (noted.forwardInst id)

/-- Exactly the loads after stores to their slots are replaced. -/
theorem mem_forwardable (f : Function) (id : Nat) : id ∈ f.forwardable.map Prod.fst ↔ f.Forwards id := by
  have all : ∀ (blocks : List Nat) (before : Replacements),
      id ∈ (blocks.foldl f.forwardBlock before).map Prod.fst ↔
        id ∈ before.map Prod.fst ∨ ∃ block ∈ blocks, f.Follows (f.blockInsts block) id := by
    intro blocks
    induction blocks with
    | nil => simp
    | cons block blocks ih =>
      intro before
      have start : f.Noted before [] ⟨[], before⟩ := by
        refine ⟨fun slot => ?_, fun id => ?_⟩
        · simp [StoresTo]
        · simp [Follows]
      have noted := (start.foldl (f.blockInsts block)).replaced id
      rw [List.nil_append] at noted
      rw [List.foldl_cons, ih, forwardBlock, noted, List.exists_mem_cons_iff, or_assoc]
  rw [forwardable, all, List.map_nil]
  simp only [List.not_mem_nil, false_or]
  rfl

end Forwarding

section Uses

private theorem unused_replaceAllUses (f : Function) (id : Nat) (apart : value ≠ .inst id) :
    (f.replaceAllUses id value).Unused id := by
  intro user used
  rw [(f.rewrites_replaceAllUses id value).operandsOf] at used
  obtain ⟨operand, _, same⟩ := List.mem_map.mp used
  unfold Operand.replace at same
  split at same
  · exact apart same
  · contradiction

theorem Unused.replaceAllUses (unused : f.Unused id) (apart : value ≠ .inst id) (other : Nat) :
    (f.replaceAllUses other value).Unused id := by
  intro user used
  rw [(f.rewrites_replaceAllUses other value).operandsOf] at used
  obtain ⟨operand, used', same⟩ := List.mem_map.mp used
  unfold Operand.replace at same
  split at same
  · exact apart same
  · exact unused user (same ▸ used')

private theorem unused_replaceAll {replacements : Replacements} (apart : ∀ entry ∈ replacements, entry.2 ≠ .inst id)
    (gone : f.Unused id ∨ id ∈ replacements.map Prod.fst) : (f.replaceAll replacements).Unused id := by
  induction replacements generalizing f with
  | nil =>
    rcases gone with unused | none
    · exact unused
    · contradiction
  | cons entry replacements ih =>
    obtain ⟨first, others⟩ := List.forall_mem_cons.mp apart
    apply ih others
    rcases gone with unused | member
    · exact .inl (unused.replaceAllUses first entry.1)
    · rcases List.mem_cons.mp member with rfl | later
      · exact .inl (f.unused_replaceAllUses entry.1 first)
      · exact .inr later

/-- Forwarding leaves no use of the loads it replaces: what takes their place is not itself replaced. -/
theorem Chronological.unused_forwardStores (chronological : f.Chronological) (forwards : f.Forwards id) :
    f.forwardStores.1.Unused id := by
  have key := (f.mem_forwardable id).mpr forwards
  refine unused_replaceAll (fun entry member same => ?_) (.inr ?_)
  · obtain ⟨⟨load, value⟩, _, rfl⟩ := List.mem_map.mp member
    have missing := List.lookup_eq_none_iff.mp (chronological.ordered.forwardable.lookup_resolve same)
    obtain ⟨entry, held, rfl⟩ := List.mem_map.mp key
    simpa using missing entry held
  · rw [List.map_map]
    exact key

private theorem not_mem_usedIds (unused : f.Unused id) : id ∉ f.usedIds := by
  intro used
  obtain ⟨user, _, member⟩ := List.mem_flatMap.mp used
  obtain ⟨operand, used', same⟩ := List.mem_filterMap.mp member
  cases operand <;> cases same
  exact unused user used'

end Uses

section Folding

private theorem mapOperands_of_fixed {instr : Instr} (fixed : ∀ operand ∈ instr.operands, change operand = operand) :
    instr.mapOperands change = instr := by
  cases instr with
  | call callee args => exact congrArg (Instr.call callee) ((List.map_congr_left fixed).trans (List.map_id args))
  | slot => rfl
  | jump dest => rfl
  | _ => simp_all [Instr.mapOperands, Instr.operands]

/-- Replacing a result does not touch the instructions up to the one that yields it. -/
theorem Chronological.instr?_replaceAllUses (chronological : f.Chronological) (le : other ≤ id) (value : Operand) :
    (f.replaceAllUses id value).instr? other = f.instr? other := by
  rw [(f.rewrites_replaceAllUses id value).instrs]
  cases found : f.instr? other with
  | none => rfl
  | some instr =>
    refine congrArg some (mapOperands_of_fixed fun operand used => ?_)
    unfold Operand.replace
    refine if_neg fun same => ?_
    have lower := chronological.backward other id (by rw [operandsOf, found, ← same]; exact used)
    omega

/-- So what could not be folded before still cannot be. -/
theorem Chronological.constantResult?_replaceAllUses (chronological : f.Chronological) (lt : other < id)
    (value : Operand) : (f.replaceAllUses id value).constantResult? other = f.constantResult? other := by
  unfold constantResult?
  rw [chronological.instr?_replaceAllUses (Nat.le_of_lt lt)]
  split
  · rfl
  · next flag found =>
    have lower := chronological.backward other flag (by simp [operandsOf, found, Instr.operands])
    rw [chronological.instr?_replaceAllUses (by omega)]
  · rfl

private theorem constantResult?_of_isSlot (slot : f.isSlot id = true) : f.constantResult? id = none := by
  unfold isSlot at slot
  unfold constantResult?
  cases found : f.instr? id with
  | none => rfl
  | some instr =>
    rw [found] at slot
    cases instr <;> first | rfl | contradiction

/-- Folding an instruction does not give those before it constants to work on. -/
theorem Chronological.constantResult?_earlier (chronological : f.Chronological)
    (here : f.liveInsts = done ++ id :: rest) (constant : f.constantResult? id ≠ none) (member : other ∈ done)
    (value : Operand) : (f.replaceAllUses id value).constantResult? other = f.constantResult? other := by
  by_cases slot : f.isSlot other = true
  · have slot' := ((f.rewrites_replaceAllUses id value).isSlot other).trans slot
    rw [constantResult?_of_isSlot slot, constantResult?_of_isSlot slot']
  · have plain : f.isSlot id = false := by
      by_contra slot
      exact constant (constantResult?_of_isSlot (by simpa using slot))
    have lt := chronological.lt_of_live here member (by simpa using slot) plain
    exact chronological.constantResult?_replaceAllUses lt value

/-- The instructions on constants among `done` are not used any more. -/
def Folded (f : Function) (done : List Nat) : Prop :=
  ∀ id ∈ done, f.constantResult? id ≠ none → f.Unused id

/-- One instruction further, all instructions on constants are unused. -/
theorem Folded.foldInst {state : Function × Bool} (chronological : state.1.Chronological)
    (here : state.1.liveInsts = done ++ id :: rest) (folded : state.1.Folded done) :
    (foldInst state id).1.Folded (done ++ [id]) := by
  intro other member
  unfold Function.foldInst
  split
  · next value constant =>
    intro constant'
    rcases List.mem_append.mp member with earlier | last
    · rw [chronological.constantResult?_earlier here (by simp [constant]) earlier] at constant'
      exact (folded other earlier constant').replaceAllUses (by simp) id
    · cases List.mem_singleton.mp last
      exact state.1.unused_replaceAllUses id (by simp)
  · next none =>
    intro constant
    rcases List.mem_append.mp member with earlier | last
    · exact folded other earlier constant
    · cases List.mem_singleton.mp last
      exact absurd none constant

/-- A rewriting that leaves places alone makes no load follow a store that it did not follow before. -/
theorem Rewrites.forwards (rewrites : f.Rewrites g change []) (careful : f.Careful change [])
    (forwards : g.Forwards id) : f.Forwards id := by
  obtain ⟨block, placed, store, slot, value, inside, stores, loads⟩ := forwards
  have same : g.blockInsts block = f.blockInsts block :=
    (rewrites.insts block).trans (List.filter_eq_self.mpr fun _ _ => rfl)
  rw [same] at inside
  rw [rewrites.kept.layout] at placed
  have place : ∀ user ∈ f.blockInsts block, ∀ operand, (operand, .place) ∈ f.inputsOf user →
      change operand = operand := fun user member operand asked =>
    (careful.unnoticed block user member List.not_mem_nil _ asked).place rfl
  rw [rewrites.instrs] at stores loads
  have stored : ∃ old, f.instr? store = some (.store old (.inst slot)) := by
    obtain ⟨instr, found, same⟩ := Option.map_eq_some_iff.mp stores
    cases instr with
    | store old target =>
      obtain ⟨_, target_eq⟩ := Instr.store.inj same
      have fixed := place store (inside.subset (by simp)) target (by simp [Function.inputsOf, found, Instr.inputs])
      exact ⟨old, by rw [found, ← fixed, target_eq]⟩
    | _ => contradiction
  have loaded : f.instr? id = some (.load (.inst slot)) := by
    obtain ⟨instr, found, same⟩ := Option.map_eq_some_iff.mp loads
    cases instr with
    | load target =>
      have fixed := place id (inside.subset (by simp)) target (by simp [Function.inputsOf, found, Instr.inputs])
      rw [found, ← fixed, Instr.load.inj same]
    | _ => contradiction
  obtain ⟨old, stored⟩ := stored
  exact ⟨block, placed, store, slot, old, inside, stored, loaded⟩

/-- How far folding the constants of `f` has come once `done` has been looked at. -/
structure Folds (f : Function) (done : List Nat) (g : Function) : Prop where
  wellFormed : g.WellFormed
  chronological : g.Chronological
  live : g.liveInsts = f.liveInsts
  folded : g.Folded done
  forwards : ∀ id, g.Forwards id → f.Forwards id
  unused : ∀ id, f.Unused id → g.Unused id

theorem Folds.foldInst {state : Function × Bool} (folds : f.Folds done state.1)
    (here : f.liveInsts = done ++ id :: rest) : f.Folds (done ++ [id]) (Function.foldInst state id).1 where
  wellFormed := (folds.wellFormed.foldInst (by simp [folds.live, here])).wellFormed
  chronological := folds.chronological.foldInst id
  live := (liveInsts_foldInst state id).trans folds.live
  folded := folds.folded.foldInst folds.chronological (folds.live.trans here)
  forwards := by
    intro other forwards
    apply folds.forwards
    unfold Function.foldInst at forwards
    split at forwards
    · next value constant =>
      have equation := folds.wellFormed.constant (by simp [folds.live, here]) constant
      exact (rewrites_replaceAllUses _ _ _).forwards (folds.wellFormed.careful equation.means) forwards
    · exact forwards
  unused := by
    intro other unused
    unfold Function.foldInst
    split
    · exact (folds.unused other unused).replaceAllUses (by simp) id
    · exact folds.unused other unused

theorem Folds.foldl {state : Function × Bool} (folds : f.Folds done state.1) (here : f.liveInsts = done ++ rest) :
    f.Folds (done ++ rest) (rest.foldl Function.foldInst state).1 := by
  induction rest generalizing done state with
  | nil =>
    rw [List.append_nil]
    exact folds
  | cons id rest ih =>
    have step := folds.foldInst here
    rw [← List.singleton_append, ← List.append_assoc] at here ⊢
    exact ih step here

private theorem folds_foldConstants (wellFormed : f.WellFormed) (chronological : f.Chronological) :
    f.Folds f.liveInsts f.foldConstants.1 := by
  have start : f.Folds [] (f, false).1 :=
    ⟨wellFormed, chronological, rfl, fun _ none => by contradiction, fun _ => id, fun _ => id⟩
  exact start.foldl rfl

end Folding

section Removal

/-- What removing dead code leaves: the same instructions in fewer places, and none of them dead. -/
structure Cleared (f g : Function) : Prop where
  layout : g.layout = f.layout
  insts : g.insts = f.insts
  blocks : ∀ block, (g.blockInsts block).Sublist (f.blockInsts block)
  alive : g.deadInsts = []

private theorem cleared_removeDeadCode (f : Function) : f.Cleared f.removeDeadCode.1 := by
  induction f using removeDeadCode.induct with
  | case1 f dead nonempty ih =>
    rw [removeDeadCode, dif_pos nonempty]
    refine ⟨ih.layout, ih.insts, fun block => (ih.blocks block).trans ?_, ih.alive⟩
    rw [blockInsts_unlink]
    exact List.filter_sublist
  | case2 f dead none =>
    rw [removeDeadCode, dif_neg none]
    exact ⟨rfl, rfl, fun _ => List.Sublist.refl _, Decidable.not_not.mp none⟩

/-- Where no code is dead, everything that could be removed is used. -/
theorem not_unused_of_alive (alive : f.deadInsts = []) (live : id ∈ f.liveInsts) {instr : Instr}
    (found : f.instr? id = some instr) (harmless : instr.isPure = true) : ¬ f.Unused id := by
  intro unused
  have dead : id ∈ f.deadInsts := by
    refine List.mem_filter.mpr ⟨live, ?_⟩
    have unread := not_mem_usedIds unused
    unfold isDead
    rw [found]
    cases instr <;> first | contradiction | simp [Instr.isPure, unread]
  rw [alive] at dead
  contradiction

private theorem isPure_of_constantResult? (constant : f.constantResult? id ≠ none) :
    ∃ instr, f.instr? id = some instr ∧ instr.isPure = true := by
  unfold constantResult? at constant
  split at constant
  · next found => exact ⟨_, found, rfl⟩
  · next found => exact ⟨_, found, rfl⟩
  · contradiction

theorem Cleared.settled (cleared : f.Cleared g) (loads : ∀ id, f.Forwards id → f.Unused id)
    (folded : f.Folded f.liveInsts) : g.Settled := by
  have instrs (id : Nat) : g.instr? id = f.instr? id := by simp only [instr?, inst?, cleared.insts]
  have unused : ∀ id, f.Unused id → g.Unused id := fun id unused user used => by
    rw [operandsOf, instrs] at used
    exact unused user used
  refine ⟨fun id forwards => ?_, fun id live => ?_, cleared.alive⟩
  · obtain ⟨block, placed, store, slot, value, inside, stores, reads⟩ := forwards
    have live : id ∈ g.liveInsts := List.mem_flatMap.mpr ⟨block, placed, inside.subset (by simp)⟩
    refine not_unused_of_alive cleared.alive live reads rfl (unused id (loads id ?_))
    rw [cleared.layout] at placed
    rw [instrs] at stores reads
    exact ⟨block, placed, store, slot, value, inside.trans (cleared.blocks block), stores, reads⟩
  · by_contra constant
    obtain ⟨instr, found, harmless⟩ := isPure_of_constantResult? constant
    refine not_unused_of_alive cleared.alive live found harmless (unused id (folded id ?_ ?_))
    · obtain ⟨block, placed, member⟩ := List.mem_flatMap.mp live
      exact List.mem_flatMap.mpr ⟨block, cleared.layout ▸ placed, (cleared.blocks block).subset member⟩
    · have same : g.constantResult? id = f.constantResult? id := by simp only [constantResult?, instrs]
      rwa [← same]

end Removal

/-- After the standard passes there is nothing to do for them. -/
theorem settled_runAll (wellFormed : f.WellFormed) (chronological : f.Chronological) :
    (Pass.runAll Pass.standard f).1.Settled := by
  have sound := sound_resolve wellFormed (sound_forwardable wellFormed)
  obtain ⟨change, rewrites, means⟩ := (Rewrites.refl f).replaceAll wellFormed sound (.refl f)
  have folds := folds_foldConstants wellFormed.forwardStores.wellFormed chronological.forwardStores
  refine (cleared_removeDeadCode f.forwardStores.1.foldConstants.1).settled (fun id forwards => ?_) ?_
  · have forwards : f.Forwards id := rewrites.forwards (wellFormed.careful means) (folds.forwards id forwards)
    exact folds.unused id (chronological.unused_forwardStores forwards)
  · rw [folds.live]
    exact folds.folded

/-- Where there is nothing to do, the standard passes do nothing and say so. -/
theorem Settled.runAll_eq (settled : f.Settled) : Pass.runAll Pass.standard f = (f, false) := by
  have forwarded : f.forwardStores = (f, false) := by
    have none : f.forwardable = [] := by
      rw [← List.map_eq_nil_iff]
      exact List.eq_nil_iff_forall_not_mem.mpr fun id member => settled.loads id ((f.mem_forwardable id).mp member)
    rw [forwardStores, none]
    rfl
  have folded : f.foldConstants = (f, false) := by
    have all : ∀ ids : List Nat, (∀ id ∈ ids, f.constantResult? id = none) →
        ids.foldl foldInst (f, false) = (f, false) := by
      intro ids
      induction ids with
      | nil => exact fun _ => rfl
      | cons id ids ih =>
        intro none
        obtain ⟨first, others⟩ := List.forall_mem_cons.mp none
        rw [List.foldl_cons, foldInst, first]
        exact ih others
    exact all f.liveInsts settled.constants
  have cleared : f.removeDeadCode = (f, false) := by
    rw [removeDeadCode, dif_neg (not_not_intro settled.alive)]
  simp only [Pass.standard, Pass.runAll, Pass.apply, forwarded, folded, cleared, Bool.or_false]

end Function

end Flow

/-- The function of a definition has been well formed and in order since before the passes over it. -/
theorem Lowering.definition_passes {c : Context} (sound : c.Sound) {proto : Prototype} {body : Expr} {id : Nat}
    (done : (definition proto body c).1 = .ok id) :
    ∃ f, f.WellFormed ∧ f.Chronological ∧
      (definition proto body c).2.builder.module.function? id = some (Pass.runAll c.builder.passes f).1 := by
  obtain ⟨attempt, value, result, found⟩ := Context.function?_definition sound done
  exact ⟨attempt.function value, (attempt.wellFormed result).1, attempt.chronological result, found⟩

namespace Form

/-- One run of the standard passes over the function of a definition leaves nothing to do: a second run changes
nothing and says so, whatever passes there were before and also where the standard passes were those of the builder. -/
theorem standard_passes_settle {passes : List Pass} {allowed : Form → Prop} {c : Context}
    (reachable : c.Reachable passes allowed) (proto : Prototype) (body : Expr) (table : PrecedenceTable) {id : Nat}
    (done : ((definition proto body).lower c table).result = .ok id) :
    ∃ f, ((definition proto body).lower c table).context.builder.module.function? id = some f ∧
      (Pass.runAll Pass.standard f).1.Settled ∧
      Pass.runAll Pass.standard (Pass.runAll Pass.standard f).1 = ((Pass.runAll Pass.standard f).1, false) ∧
      (passes = Pass.standard → Pass.runAll Pass.standard f = (f, false)) := by
  obtain ⟨f, wellFormed, chronological, found⟩ := Lowering.definition_passes reachable.sound done
  rw [reachable.passes_eq] at found
  have wellFormed' := (Pass.improves_runAll passes wellFormed).wellFormed
  have settled := Function.settled_runAll wellFormed' (Pass.chronological_runAll passes chronological)
  refine ⟨_, found, settled, settled.runAll_eq, ?_⟩
  rintro rfl
  exact (Function.settled_runAll wellFormed chronological).runAll_eq

/-- `def f(x) var a = 1 in if a < 0 then a + x else x`, with the standard passes in the builder. -/
theorem standard_passes_settle_choice : ∃ f,
    ((definition ⟨"f", ["x"], .function, 30⟩
        (.bind [("a", .number .one)] (.cond (.binary '<' (.var "a") (.number .zero))
          (.binary '+' (.var "a") (.var "x")) (.var "x")))).lower
      (.new (.new "m" Pass.standard)) .standard).context.builder.module.function? 0 = some f ∧
      f.Settled ∧ Pass.runAll Pass.standard f = (f, false) := by
  have reachable : Context.Reachable Pass.standard (fun _ => True) (.new (.new "m" Pass.standard)) := .new "m"
  have done : ((definition ⟨"f", ["x"], .function, 30⟩
      (.bind [("a", .number .one)] (.cond (.binary '<' (.var "a") (.number .zero))
        (.binary '+' (.var "a") (.var "x")) (.var "x")))).lower
    (.new (.new "m" Pass.standard)) .standard).result.toOption = some 0 := by decide +kernel
  obtain ⟨f, found, settled, _, same⟩ := standard_passes_settle reachable ⟨"f", ["x"], .function, 30⟩
    (.bind [("a", .number .one)] (.cond (.binary '<' (.var "a") (.number .zero))
      (.binary '+' (.var "a") (.var "x")) (.var "x"))) .standard (ok_of_toOption done)
  rw [same rfl] at settled
  exact ⟨f, found, settled, same rfl⟩

end Form

end Kaleidoscope
