import Kaleidoscope.Proofs.Pass.Settled

/-!
Replacements made in any order. Where everything is replaced by something that was made before it, following
replacements ends, and at values that are not replaced themselves. Then one replacement does not get in the way of
another, and all of them together are one substitution.
-/

namespace Kaleidoscope

open Kaleidoscope.Flow

namespace Flow

namespace Replacements

/-- Looking up one replacement after the other, from `value` on, ends at `last`. -/
inductive Leads (replacements : Replacements) : Operand → Operand → Prop where
  | stop {value : Operand} (final : ∀ id, value = .inst id → replacements.lookup id = none) :
      Leads replacements value value
  | follow {id : Nat} {next last : Operand} (found : replacements.lookup id = some next)
      (onward : Leads replacements next last) : Leads replacements (.inst id) last

/-- `entries` are the entries of a map that holds what `replacements` says, each key once, in some order. -/
structure Enumerates (entries replacements : Replacements) : Prop where
  once : (entries.map Prod.fst).Nodup
  holds : ∀ id value, (id, value) ∈ entries ↔ replacements.lookup id = some value

/-- Nothing is replaced by something that is replaced itself. -/
def Flat (replacements : Replacements) : Prop :=
  ∀ entry ∈ replacements, ∀ id, entry.2 = .inst id → replacements.lookup id = none

def substitute (replacements : Replacements) : Operand → Operand
  | .inst id => (replacements.lookup id).getD (.inst id)
  | other => other

variable {replacements entries : Replacements} {value last : Operand} {id : Nat}

/-- Below a replaced result it makes no difference whether that result is replaced. -/
theorem Leads.of_without (leads : (replacements.without id).Leads value last) (descending : replacements.Descending)
    (before : value.MadeBefore id) : replacements.Leads value last := by
  induction leads with
  | stop final =>
    refine .stop fun source same => ?_
    rw [← lookup_without replacements (Nat.ne_of_lt (before source same))]
    exact final source same
  | @follow source next last found onward ih =>
    have below := before source rfl
    rw [lookup_without replacements (Nat.ne_of_lt below)] at found
    have lower : next.MadeBefore source := descending _ (mem_of_lookup found)
    exact .follow found (ih (lower.mono (Nat.le_of_lt below)))

/-- Following replacements ends, and at what `resolve` gives. -/
theorem Descending.leads (descending : replacements.Descending) (value : Operand) :
    replacements.Leads value (replacements.resolve value) := by
  induction replacements, value using resolve.induct with
  | case1 replacements source next found ih =>
    rw [resolve_of_lookup found]
    exact .follow found ((ih (descending.without source)).of_without descending (descending _ (mem_of_lookup found)))
  | case2 replacements source missing =>
    rw [resolve_of_missing missing]
    refine .stop fun id same => ?_
    cases same
    exact missing
  | case3 replacements value other =>
    rw [resolve.eq_2 _ _ other]
    exact .stop fun id same => absurd same (other id)

private theorem lookup_tail {entry : Nat × Operand} (missing : (entry :: entries).lookup id = none) :
    entries.lookup id = none := by
  rw [List.lookup_cons] at missing
  split at missing
  · contradiction
  · exact missing

theorem Flat.tail {entry : Nat × Operand} (flat : Flat (entry :: entries)) : entries.Flat :=
  fun other member id same => lookup_tail (flat other (List.mem_cons_of_mem _ member) id same)

private theorem substitute_of_missing (missing : ∀ id, value = .inst id → replacements.lookup id = none) :
    replacements.substitute value = value := by
  cases value with
  | inst id => rw [substitute, missing id rfl, Option.getD_none]
  | _ => rfl

private theorem substitute_cons (key : Nat) (value operand : Operand) (entries : Replacements) :
    substitute ((key, value) :: entries) operand =
      if operand = .inst key then value else entries.substitute operand := by
  cases operand with
  | inst id =>
    by_cases here : id = key
    · simp [substitute, here]
    · have apart : (id == key) = false := by simpa using here
      simp [substitute, List.lookup_cons, apart, here]
  | _ => rfl

/-- Flat replacements made one after the other are one substitution. -/
theorem Flat.foldl_replace (flat : entries.Flat) (operand : Operand) :
    entries.foldl (fun operand entry => Operand.replace entry.1 entry.2 operand) operand =
      entries.substitute operand := by
  induction entries generalizing operand with
  | nil => exact (substitute_of_missing fun _ _ => rfl).symm
  | cons entry entries ih =>
    obtain ⟨key, value⟩ := entry
    have final : substitute entries value = value := substitute_of_missing fun id same =>
      lookup_tail (flat (key, value) List.mem_cons_self id same)
    rw [List.foldl_cons, ih flat.tail, substitute_cons, Operand.replace]
    split
    · exact final
    · rfl

/-- The replacements with every way followed to its end. -/
def resolving (replacements entries : Replacements) : Replacements :=
  entries.map fun entry => (entry.1, replacements.resolve entry.2)

private theorem lookup_resolving (replacements entries : Replacements) (id : Nat) :
    (replacements.resolving entries).lookup id = (entries.lookup id).map replacements.resolve := by
  induction entries with
  | nil => rfl
  | cons entry entries ih =>
    rw [resolving, List.map_cons, List.lookup_cons, List.lookup_cons]
    split
    · rfl
    · exact ih

/-- In whatever order a map gives its entries, it gives what it holds. -/
theorem Enumerates.lookup (enumerates : entries.Enumerates replacements) (id : Nat) :
    entries.lookup id = replacements.lookup id := by
  cases found : entries.lookup id with
  | some value => exact ((enumerates.holds id value).mp (mem_of_lookup found)).symm
  | none =>
    cases held : replacements.lookup id with
    | none => rfl
    | some value =>
      have apart := List.lookup_eq_none_iff.mp found _ ((enumerates.holds id value).mpr held)
      simp at apart

/-- Replacements that descend are flat once every way has been followed to its end. -/
theorem Descending.flat (descending : replacements.Descending)
    (same : ∀ id, entries.lookup id = replacements.lookup id) : (replacements.resolving entries).Flat := by
  intro entry member id ends
  obtain ⟨held, _, rfl⟩ := List.mem_map.mp member
  rw [lookup_resolving, same, descending.lookup_resolve ends]
  rfl

end Replacements

namespace Function

variable {f : Function} {entries replacements : Replacements}

/-- The function with every operand changed. -/
def mapOperands (f : Function) (change : Operand → Operand) : Function :=
  { f with insts := f.insts.map fun inst => { inst with instr := inst.instr.mapOperands change } }

private theorem replaceAll_eq (f : Function) (entries : Replacements) :
    f.replaceAll entries = f.mapOperands fun operand =>
      entries.foldl (fun operand entry => Operand.replace entry.1 entry.2 operand) operand := by
  induction entries generalizing f with
  | nil => simp [replaceAll, mapOperands, mapOperands_id]
  | cons entry entries ih =>
    have rest := ih (f.replaceAllUses entry.1 entry.2)
    simp only [mapOperands, replaceAllUses, Array.map_map, Function.comp_def, mapOperands_mapOperands] at rest
    exact rest

/-- Replacements that descend, each followed to its end, make the same function in whatever order they come. -/
theorem replaceAll_resolving (f : Function) (descending : replacements.Descending)
    (same : ∀ id, entries.lookup id = replacements.lookup id) :
    f.replaceAll (replacements.resolving entries) = f.mapOperands (replacements.resolving replacements).substitute := by
  rw [replaceAll_eq, funext (descending.flat same).foldl_replace]
  refine congrArg f.mapOperands (funext fun operand => ?_)
  cases operand with
  | inst id => simp only [Replacements.substitute, Replacements.lookup_resolving, same]
  | _ => rfl

/-- What is known once `blocks` and the instructions `done` of the next block have been gone through. -/
def forwardingAt (f : Function) (blocks done : List Nat) : Forwarding :=
  done.foldl f.forwardInst ⟨[], blocks.foldl f.forwardBlock []⟩

/-- Forwarding the stores of a function ends, with the same result in whatever order loads are replaced. -/
structure ForwardsSurely (f : Function) : Prop where
  /-- Following replacements ends wherever the walk through the function has come to. -/
  walking : ∀ blocks block later done rest, f.layout = blocks ++ block :: later → f.blockInsts block = done ++ rest →
    ∀ value, (f.forwardingAt blocks done).replaced.Leads value ((f.forwardingAt blocks done).replaced.resolve value)
  /-- And so it does when the walk is over. -/
  walked : ∀ value, f.forwardable.Leads value (f.forwardable.resolve value)
  /-- What a load is replaced by in the end is not a replaced load. -/
  final : ∀ entry ∈ f.forwardable, ∀ id, f.forwardable.resolve entry.2 = .inst id → f.forwardable.lookup id = none
  anyOrder : ∀ order : Replacements, order.Enumerates f.forwardable →
    f.replaceAll (f.forwardable.resolving order) = f.forwardStores.1

private theorem Ordered.forwardingAt (ordered : f.Ordered) {blocks later done rest : List Nat} {block : Nat}
    (layout : f.layout = blocks ++ block :: later) (here : f.blockInsts block = done ++ rest) :
    (f.forwardingAt blocks done).replaced.Descending := by
  have placed : ∀ other ∈ blocks, other ∈ f.layout := fun other member => by simp [layout, member]
  have before := ordered.forwardBlocks placed Replacements.descending_nil
  exact ((lower_start before).foldl ordered (by simp [layout]) here).replaced

private theorem Ordered.forwardsSurely (ordered : f.Ordered) : f.ForwardsSurely where
  walking := fun _ _ _ _ _ layout here => (ordered.forwardingAt layout here).leads
  walked := ordered.forwardable.leads
  final := fun _ _ _ ends => ordered.forwardable.lookup_resolve ends
  anyOrder := fun order enumerates => by
    have listed := f.replaceAll_resolving ordered.forwardable enumerates.lookup
    exact listed.trans (f.replaceAll_resolving ordered.forwardable fun _ => rfl).symm

end Function

end Flow

/-- Wherever instructions use only what was made before them and blocks are in the order they were made in, forwarding
stores ends, with the same result in whatever order loads are replaced; and the functions of definitions are like that,
before and after any passes. -/
theorem store_forwarding_determined :
    (∀ f : Function, f.Ordered → f.ForwardsSurely) ∧
      ∀ (passes : List Pass) (allowed : Form → Prop) (c : Context), c.Reachable passes allowed →
        ∀ (proto : Prototype) (body : Expr) (table : PrecedenceTable) (id : Nat),
          ((Form.definition proto body).lower c table).result = .ok id →
          ∃ f, ((Form.definition proto body).lower c table).context.builder.module.function? id = some f ∧
            ∀ further, (Pass.runAll further f).1.Ordered := by
  refine ⟨fun f ordered => ordered.forwardsSurely, ?_⟩
  intro passes allowed c reachable proto body table id done
  obtain ⟨f, _, chronological, found⟩ := Lowering.definition_passes reachable.sound done
  refine ⟨_, found, fun further => ?_⟩
  exact (Pass.chronological_runAll further (Pass.chronological_runAll _ chronological)).ordered

/-- `def f(x) var a = x in a + x`, where all three loads are replaced. -/
theorem store_forwarding_determined_copy : ∃ f,
    ((Form.definition ⟨"f", ["x"], .function, 30⟩
        (.bind [("a", .var "x")] (.binary '+' (.var "a") (.var "x")))).lower
      (.new (.new "m" [])) .standard).context.builder.module.function? 0 = some f ∧
      f.forwardable.length = 3 ∧ f.Ordered ∧ f.ForwardsSurely := by
  have reachable : Context.Reachable [] (fun _ => True) (.new (.new "m" [])) := .new "m"
  have done : ((Form.definition ⟨"f", ["x"], .function, 30⟩
      (.bind [("a", .var "x")] (.binary '+' (.var "a") (.var "x")))).lower
    (.new (.new "m" [])) .standard).result.toOption = some 0 := by decide +kernel
  have loads : (((Form.definition ⟨"f", ["x"], .function, 30⟩
      (.bind [("a", .var "x")] (.binary '+' (.var "a") (.var "x")))).lower
    (.new (.new "m" [])) .standard).context.builder.module.function? 0).map (·.forwardable.length) = some 3 := by
    decide +kernel
  obtain ⟨f, found, ordered⟩ := store_forwarding_determined.2 [] _ _ reachable ⟨"f", ["x"], .function, 30⟩
    (.bind [("a", .var "x")] (.binary '+' (.var "a") (.var "x"))) .standard 0 (ok_of_toOption done)
  rw [found] at loads
  exact ⟨f, found, Option.some.inj loads, ordered [], store_forwarding_determined.1 f (ordered [])⟩

end Kaleidoscope
