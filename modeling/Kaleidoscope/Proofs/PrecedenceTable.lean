import Kaleidoscope.PrecedenceTable

/-!
How each operation changes what a precedence table holds for a symbol, and what comes of declaring a symbol that has
no pending declaration. A table is settled if nothing is pending and its precedences are ones that can be written.
-/

namespace Kaleidoscope

namespace PrecedenceTable

variable (t : PrecedenceTable) (symbol other : Char) (precedence : Int)

@[ext]
theorem ext {t u : PrecedenceTable} (entries : ∀ symbol, t.get? symbol = u.get? symbol)
    (pending : ∀ symbol, t.pending.get? symbol = u.pending.get? symbol) : t = u := by
  obtain ⟨table, waiting⟩ := t
  obtain ⟨table', waiting'⟩ := u
  obtain rfl : table = table' := SortedMap.eq_of_get?_eq entries
  obtain rfl : waiting = waiting' := SortedMap.eq_of_get?_eq pending
  rfl

theorem get?_set :
    (t.set symbol precedence).get? other = if other = symbol then some precedence else t.get? other :=
  t.table.get?_insert symbol other precedence

private theorem get?_remove : (t.remove symbol).get? other = if other = symbol then none else t.get? other :=
  t.table.get?_erase symbol other

@[simp]
theorem get?_commit : (t.commit symbol).get? other = t.get? other := rfl

theorem pending_commit :
    (t.commit symbol).pending.get? other = if other = symbol then none else t.pending.get? other :=
  t.pending.get?_erase symbol other

@[simp]
theorem pending_set : (t.set symbol precedence).pending = t.pending := rfl

@[simp]
theorem pending_remove : (t.remove symbol).pending = t.pending := rfl

theorem get?_declare :
    (t.declare symbol precedence).get? other = if other = symbol then some precedence else t.get? other := by
  unfold declare
  split
  · exact t.get?_set symbol other precedence
  · exact get?_set _ symbol other precedence

theorem pending_declare :
    (t.declare symbol precedence).pending.get? other =
      if other = symbol then some ((t.pending.get? symbol).getD (t.get? symbol)) else t.pending.get? other := by
  unfold declare
  split
  · next first waiting =>
    by_cases same : other = symbol
    · subst same
      simp [waiting]
    · simp [same]
  · next settled => simp [SortedMap.get?_insert, settled]

theorem get?_retract :
    (t.retract symbol).get? other =
      if other = symbol then (t.pending.get? symbol).getD (t.get? symbol) else t.get? other := by
  unfold retract
  split
  · next previous waiting => simp [get?_set, waiting]
  · next waiting => simp [get?_remove, waiting]
  · next settled =>
    by_cases same : other = symbol
    · subst same
      simp [settled]
    · simp [same]

theorem pending_retract :
    (t.retract symbol).pending.get? other = if other = symbol then none else t.pending.get? other := by
  unfold retract
  split
  · exact t.pending_commit symbol other
  · exact t.pending_commit symbol other
  · next settled =>
    by_cases same : other = symbol
    · subst same
      simp [settled]
    · simp [same]

/-- A second declaration changes what the symbol has, and not what it goes back to. -/
theorem declare_declare (later : Int) :
    (t.declare symbol precedence).declare symbol later = t.declare symbol later := by
  apply ext
  · intro other
    simp only [get?_declare]
    split <;> rfl
  · intro other
    simp only [pending_declare]
    split <;> simp

variable {t symbol}

theorem retract_declare (settled : t.pending.get? symbol = none) :
    (t.declare symbol precedence).retract symbol = t := by
  apply ext
  · intro other
    simp only [get?_retract, get?_declare, pending_declare]
    split
    · next same => simp [same, settled]
    · rfl
  · intro other
    simp only [pending_retract, pending_declare]
    split
    · next same => simp [same, settled]
    · rfl

theorem commit_declare (settled : t.pending.get? symbol = none) :
    (t.declare symbol precedence).commit symbol = t.set symbol precedence := by
  apply ext
  · intro other
    simp only [get?_commit, get?_declare, get?_set]
  · intro other
    simp only [pending_commit, pending_declare, pending_set]
    split
    · next same => simp [same, settled]
    · rfl

/-- Nothing is pending, and all precedences are ones that can be written. -/
structure Settled (t : PrecedenceTable) : Prop where
  pending : t.pending = .empty
  range : ∀ symbol precedence, t.get? symbol = some precedence → 1 ≤ precedence ∧ precedence ≤ 100

theorem mem_entries_of_get? {precedence : Int} (found : t.get? symbol = some precedence) :
    (symbol, precedence) ∈ t.table.entries := by
  obtain ⟨front, back, same, _⟩ := List.lookup_eq_some_iff.mp found
  simp [same]

theorem settled_standard : standard.Settled := by
  refine ⟨rfl, fun symbol precedence found => ?_⟩
  have entry := mem_entries_of_get? found
  simp only [standard, List.mem_cons, Prod.mk.injEq, List.not_mem_nil, or_false] at entry
  omega

theorem Settled.not_pending (settled : t.Settled) (symbol : Char) : t.pending.get? symbol = none := by
  rw [settled.pending, SortedMap.get?_empty]

theorem Settled.set (settled : t.Settled) (symbol : Char) {precedence : Int}
    (range : 1 ≤ precedence ∧ precedence ≤ 100) : (t.set symbol precedence).Settled := by
  refine ⟨settled.pending, fun other held found => ?_⟩
  rw [get?_set] at found
  split at found
  · cases found
    exact range
  · exact settled.range other held found

/-- The table with one entry set, or as it is. -/
def setting (t : PrecedenceTable) : Option (Char × Int) → PrecedenceTable
  | none => t
  | some (symbol, precedence) => t.set symbol precedence

end PrecedenceTable

end Kaleidoscope
