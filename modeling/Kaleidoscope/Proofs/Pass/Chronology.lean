import Kaleidoscope.Proofs.Lowering.Chronology
import Kaleidoscope.Proofs.Pass.DeadCode

/-!
Passes keep the order in which a function was built. What takes the place of a result was made before it, so
following replacements goes down, and ends at something that nothing replaces.
-/

namespace Kaleidoscope.Flow

/-- Anything but the result of `id` or of a later instruction. -/
def Operand.MadeBefore (value : Operand) (id : Nat) : Prop := ∀ source, value = .inst source → source < id

theorem Operand.MadeBefore.mono {value : Operand} {id later : Nat} (before : value.MadeBefore id) (le : id ≤ later) :
    value.MadeBefore later :=
  fun source same => Nat.lt_of_lt_of_le (before source same) le

namespace Replacements

/-- Everything is replaced by something that was made before it. -/
def Descending (replacements : Replacements) : Prop := ∀ entry ∈ replacements, entry.2.MadeBefore entry.1

variable {replacements : Replacements} {value next : Operand} {id : Nat}

theorem resolve_of_lookup (found : replacements.lookup id = some next) :
    replacements.resolve (.inst id) = (replacements.without id).resolve next := by
  rw [resolve]
  split
  · next other found' => rw [Option.some.inj (found.symm.trans found')]
  · next missing =>
    rw [found] at missing
    contradiction

theorem resolve_of_missing (missing : replacements.lookup id = none) :
    replacements.resolve (.inst id) = .inst id := by
  rw [resolve]
  split
  · next other found =>
    rw [missing] at found
    contradiction
  · rfl

theorem descending_nil : Descending [] := List.forall_mem_nil _

theorem Descending.without (descending : replacements.Descending) (id : Nat) :
    (replacements.without id).Descending :=
  fun entry member => descending entry (List.mem_filter.mp member).1

theorem lookup_without (replacements : Replacements) {other : Nat} (apart : other ≠ id) :
    (replacements.without id).lookup other = replacements.lookup other := by
  induction replacements with
  | nil => rfl
  | cons entry replacements ih =>
    obtain ⟨key, value⟩ := entry
    unfold Replacements.without at ih ⊢
    by_cases gone : key = id
    · have differs : (other == key) = false := by simpa [gone] using apart
      rw [List.filter_cons_of_neg (by simpa using gone), ih, List.lookup_cons, differs]
    · rw [List.filter_cons_of_pos (by simpa using gone), List.lookup_cons, List.lookup_cons, ih]

private theorem Descending.resolve_madeBefore (descending : replacements.Descending) (before : value.MadeBefore id) :
    (replacements.resolve value).MadeBefore id := by
  induction replacements, value using resolve.induct with
  | case1 replacements source next found ih =>
    rw [resolve_of_lookup found]
    have lower : next.MadeBefore source := descending _ (mem_of_lookup found)
    exact ih (descending.without source) (lower.mono (Nat.le_of_lt (before source rfl)))
  | case2 replacements source missing =>
    rw [resolve_of_missing missing]
    exact before
  | case3 replacements value other =>
    rw [resolve.eq_2 _ _ other]
    exact before

/-- Where following replacements ends, nothing is left to replace. -/
theorem Descending.lookup_resolve (descending : replacements.Descending)
    (same : replacements.resolve value = .inst id) :
    replacements.lookup id = none := by
  induction replacements, value using resolve.induct with
  | case1 replacements source next found ih =>
    rw [resolve_of_lookup found] at same
    -- The end of the way lies below every result that was replaced on it.
    have lower : next.MadeBefore source := descending _ (mem_of_lookup found)
    have below := (descending.without source).resolve_madeBefore lower id same
    rw [← lookup_without replacements (Nat.ne_of_lt below)]
    exact ih (descending.without source) same
  | case2 replacements source missing =>
    rw [resolve_of_missing missing] at same
    cases same
    exact missing
  | case3 replacements value other =>
    rw [resolve.eq_2 _ _ other] at same
    exact absurd same (other id)

/-- The replacements with every way followed to its end. -/
theorem Descending.resolved (descending : replacements.Descending) :
    Descending (replacements.map fun entry => (entry.1, replacements.resolve entry.2)) := by
  intro entry member
  obtain ⟨⟨key, value⟩, held, rfl⟩ := List.mem_map.mp member
  exact descending.resolve_madeBefore (descending _ held)

end Replacements

namespace Function

variable {f g : Function} {change : Operand → Operand} {dead done rest : List Nat} {id block : Nat} {value : Operand}

theorem Rewrites.operandsOf (rewrites : f.Rewrites g change dead) (id : Nat) :
    g.operandsOf id = (f.operandsOf id).map change := by
  simp only [Function.operandsOf, rewrites.instrs]
  cases f.instr? id with
  | none => rfl
  | some instr => exact instr.operands_mapOperands change

private theorem Rewrites.liveCode_sublist (rewrites : f.Rewrites g change dead) : g.liveCode.Sublist f.liveCode := by
  have live : g.liveInsts = f.liveInsts.filter (!dead.contains ·) := by
    simp only [liveInsts, List.filter_flatMap, rewrites.kept.layout]
    exact congrArg (f.layout.flatMap ·) (funext rewrites.insts)
  rw [liveCode_eq_filter, liveCode_eq_filter, live, funext rewrites.isSlot]
  exact List.filter_sublist.filter _

/-- A rewriting that only goes back to earlier results keeps a function in order. -/
theorem Rewrites.chronological (rewrites : f.Rewrites g change dead)
    (lowers : ∀ operand source, change operand = .inst source → ∃ id, operand = .inst id ∧ source ≤ id)
    (chronological : f.Chronological) : g.Chronological := by
  refine ⟨fun id source used => ?_, chronological.ascending.sublist rewrites.liveCode_sublist⟩
  rw [rewrites.operandsOf] at used
  obtain ⟨operand, used', same⟩ := List.mem_map.mp used
  obtain ⟨old, rfl, le⟩ := lowers operand source same
  exact Nat.lt_of_le_of_lt le (chronological.backward id old used')

theorem Chronological.replaceAllUses (chronological : f.Chronological) (before : value.MadeBefore id) :
    (f.replaceAllUses id value).Chronological := by
  refine (f.rewrites_replaceAllUses id value).chronological (fun operand source same => ?_) chronological
  unfold Operand.replace at same
  split at same
  · next here => exact ⟨id, here, Nat.le_of_lt (before source same)⟩
  · exact ⟨source, same, Nat.le_refl _⟩

theorem Chronological.unlink (chronological : f.Chronological) (dead : List Nat) : (f.unlink dead).Chronological :=
  (f.rewrites_unlink dead).chronological (fun _ source same => ⟨source, same, Nat.le_refl _⟩) chronological

theorem Chronological.replaceAll {replacements : Replacements} (chronological : f.Chronological)
    (descending : replacements.Descending) : (f.replaceAll replacements).Chronological := by
  induction replacements generalizing f with
  | nil => exact chronological
  | cons entry replacements ih =>
    obtain ⟨before, others⟩ := List.forall_mem_cons.mp descending
    exact ih (chronological.replaceAllUses before) others

/-- Where instructions ascend, slots apart, the one that comes first is the smaller. -/
theorem lt_of_filter (ascending : ((done ++ id :: rest).filter (!f.isSlot ·)).Pairwise (· < ·)) {earlier : Nat}
    (member : earlier ∈ done) (plain : f.isSlot earlier = false) (plain' : f.isSlot id = false) : earlier < id := by
  rw [List.filter_append, List.filter_cons_of_pos (by simpa using plain')] at ascending
  have before := (List.pairwise_append.mp ascending).2.2
  exact before earlier (List.mem_filter.mpr ⟨member, by simpa using plain⟩) id List.mem_cons_self

/-- Of two live instructions the one that comes first was made first, slots apart. -/
theorem Chronological.lt_of_live (chronological : f.Chronological) (here : f.liveInsts = done ++ id :: rest)
    {earlier : Nat} (member : earlier ∈ done) (plain : f.isSlot earlier = false) (plain' : f.isSlot id = false) :
    earlier < id := by
  have ascending := chronological.ascending
  rw [liveCode_eq_filter, here] at ascending
  exact lt_of_filter ascending member plain plain'

/-- Instructions use only what was made before them, and each block, slots apart, is in the order it was made in. -/
structure Ordered (f : Function) : Prop where
  backward : ∀ id source, .inst source ∈ f.operandsOf id → source < id
  ascending : ∀ block ∈ f.layout, (f.code block).Pairwise (· < ·)

theorem Chronological.ordered (chronological : f.Chronological) : f.Ordered :=
  ⟨chronological.backward, (List.pairwise_flatMap.mp chronological.ascending).1⟩

private theorem Ordered.lt_of_split (ordered : f.Ordered) (placed : block ∈ f.layout)
    (here : f.blockInsts block = done ++ id :: rest) {earlier : Nat} (member : earlier ∈ done)
    (plain : f.isSlot earlier = false) (plain' : f.isSlot id = false) : earlier < id := by
  have ascending := ordered.ascending block placed
  rw [code, here] at ascending
  exact lt_of_filter ascending member plain plain'

/-- What is known of slots was made before the stores it comes from. -/
structure Lower (f : Function) (done : List Nat) (state : Forwarding) : Prop where
  known : ∀ slot value, state.known.lookup slot = some value →
    ∃ store ∈ done, f.isSlot store = false ∧ value.MadeBefore store
  replaced : state.replaced.Descending

theorem Lower.forwardInst (ordered : f.Ordered) (placed : block ∈ f.layout) {state : Forwarding}
    (here : f.blockInsts block = done ++ id :: rest) (lower : f.Lower done state) :
    f.Lower (done ++ [id]) (f.forwardInst state id) := by
  have stays : ∀ slot value, state.known.lookup slot = some value →
      ∃ store ∈ done ++ [id], f.isSlot store = false ∧ value.MadeBefore store := fun slot value held => by
    obtain ⟨store, member, facts⟩ := lower.known slot value held
    exact ⟨store, List.mem_append_left _ member, facts⟩
  unfold Function.forwardInst
  split
  · next value slot found =>
    refine ⟨fun slot' value' held => ?_, lower.replaced⟩
    rw [List.lookup_cons] at held
    split at held
    · cases held
      refine ⟨id, by simp, by simp [isSlot, found, Instr.isSlot], lower.replaced.resolve_madeBefore ?_⟩
      rintro source rfl
      exact ordered.backward id source (by simp [operandsOf, found, Instr.operands])
    · exact stays slot' value' held
  · next slot found =>
    split
    · next value held =>
      refine ⟨stays, List.forall_mem_cons.mpr ⟨?_, lower.replaced⟩⟩
      obtain ⟨store, member, plain, before⟩ := lower.known slot value held
      have plain' : f.isSlot id = false := by simp [isSlot, found, Instr.isSlot]
      exact before.mono (Nat.le_of_lt (ordered.lt_of_split placed here member plain plain'))
    · exact ⟨stays, lower.replaced⟩
  · exact ⟨stays, lower.replaced⟩

theorem Lower.foldl (ordered : f.Ordered) (placed : block ∈ f.layout) {state : Forwarding} {next : List Nat}
    (here : f.blockInsts block = done ++ (next ++ rest)) (lower : f.Lower done state) :
    f.Lower (done ++ next) (next.foldl f.forwardInst state) := by
  induction next generalizing done state with
  | nil =>
    rw [List.append_nil]
    exact lower
  | cons id next ih =>
    have step := lower.forwardInst ordered placed here
    rw [List.cons_append, ← List.singleton_append, ← List.append_assoc] at here
    rw [← List.singleton_append, ← List.append_assoc]
    exact ih here step

theorem lower_start {replaced : Replacements} (descending : replaced.Descending) : f.Lower [] ⟨[], replaced⟩ :=
  ⟨fun _ _ held => by contradiction, descending⟩

theorem Ordered.forwardBlocks (ordered : f.Ordered) {blocks : List Nat} {replaced : Replacements}
    (placed : ∀ block ∈ blocks, block ∈ f.layout) (descending : replaced.Descending) :
    Replacements.Descending (blocks.foldl f.forwardBlock replaced) := by
  induction blocks generalizing replaced with
  | nil => exact descending
  | cons block blocks ih =>
    obtain ⟨first, others⟩ := List.forall_mem_cons.mp placed
    have lower := (lower_start descending).foldl ordered first (List.append_nil (f.blockInsts block)).symm
    exact ih others lower.replaced

/-- A load is replaced by something that was made before it. -/
theorem Ordered.forwardable (ordered : f.Ordered) : f.forwardable.Descending :=
  ordered.forwardBlocks (fun _ placed => placed) Replacements.descending_nil

theorem Chronological.forwardStores (chronological : f.Chronological) : f.forwardStores.1.Chronological :=
  chronological.replaceAll chronological.ordered.forwardable.resolved

theorem Chronological.foldInst {state : Function × Bool} (chronological : state.1.Chronological) (id : Nat) :
    (foldInst state id).1.Chronological := by
  unfold Function.foldInst
  split
  · exact chronological.replaceAllUses fun _ same => by contradiction
  · exact chronological

theorem Chronological.foldConstants (chronological : f.Chronological) : f.foldConstants.1.Chronological := by
  have all : ∀ (ids : List Nat) (state : Function × Bool), state.1.Chronological →
      (ids.foldl Function.foldInst state).1.Chronological := by
    intro ids
    induction ids with
    | nil => exact fun _ chronological => chronological
    | cons id ids ih => exact fun state chronological => ih _ (chronological.foldInst id)
  exact all f.liveInsts (f, false) chronological

theorem Chronological.removeDeadCode (chronological : f.Chronological) : f.removeDeadCode.1.Chronological := by
  induction f using removeDeadCode.induct with
  | case1 f dead nonempty ih =>
    rw [Function.removeDeadCode, dif_pos nonempty]
    exact ih (chronological.unlink dead)
  | case2 f dead none =>
    rw [Function.removeDeadCode, dif_neg none]
    exact chronological

end Function

namespace Pass

variable {f : Function}

private theorem chronological_apply (pass : Pass) (chronological : f.Chronological) :
    (pass.apply f).1.Chronological := by
  cases pass with
  | forwardStores => exact chronological.forwardStores
  | foldConstants => exact chronological.foldConstants
  | removeDeadCode => exact chronological.removeDeadCode

theorem chronological_runAll (passes : List Pass) (chronological : f.Chronological) :
    (runAll passes f).1.Chronological := by
  induction passes generalizing f with
  | nil => exact chronological
  | cons pass passes ih => exact ih (pass.chronological_apply chronological)

end Pass

end Kaleidoscope.Flow
