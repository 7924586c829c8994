/-!
Maps as lists in ascending order of their keys. Two maps are equal as soon as all look-ups agree.
-/

namespace Kaleidoscope

/-- Each key stands before all later ones. -/
def Ascending {κ α : Type} [LT κ] (entries : List (κ × α)) : Prop :=
  entries.Pairwise fun first second => first.1 < second.1

structure SortedMap (κ α : Type) [LT κ] where
  entries : List (κ × α)
  ascending : Ascending entries
  deriving DecidableEq

namespace SortedMap

variable {κ α : Type} [DecidableEq κ]

theorem lookup_cons_eq (key here : κ) (held : α) (rest : List (κ × α)) :
    List.lookup key ((here, held) :: rest) = if key = here then some held else rest.lookup key := by
  rw [List.lookup_cons]
  by_cases same : key = here
  · simp [same]
  · have apart : (key == here) = false := by simpa using same
    simp [same, apart]

private theorem lookup_filter (key other : κ) (entries : List (κ × α)) :
    (entries.filter (·.1 != key)).lookup other = if other = key then none else entries.lookup other := by
  induction entries with
  | nil => simp
  | cons entry rest ih =>
    obtain ⟨here, held⟩ := entry
    by_cases dropped : here = key
    · subst here
      simp only [bne_self_eq_false, Bool.false_eq_true, not_false_eq_true, List.filter_cons_of_neg, ih,
        lookup_cons_eq]
      split <;> rfl
    · have kept : (here != key) = true := by simpa using dropped
      simp only [kept, List.filter_cons_of_pos, lookup_cons_eq, ih]
      split
      · next same => subst here; simp [dropped]
      · rfl

variable [LT κ]

private theorem lookup_eq_none [Std.Irrefl fun first second : κ => first < second] {key : κ} {entries : List (κ × α)}
    (above : ∀ entry ∈ entries, key < entry.1) : entries.lookup key = none := by
  induction entries with
  | nil => rfl
  | cons entry rest ih =>
    obtain ⟨here, held⟩ := entry
    have apart : key ≠ here := Std.ne_of_lt (above _ List.mem_cons_self)
    rw [lookup_cons_eq, if_neg apart]
    exact ih fun entry member => above entry (List.mem_cons_of_mem _ member)

def empty : SortedMap κ α := ⟨[], List.Pairwise.nil⟩

def get? (map : SortedMap κ α) (key : κ) : Option α := map.entries.lookup key

@[simp]
theorem get?_empty (key : κ) : (empty : SortedMap κ α).get? key = none := rfl

def erase (map : SortedMap κ α) (key : κ) : SortedMap κ α :=
  ⟨map.entries.filter (·.1 != key), List.Pairwise.filter _ map.ascending⟩

theorem get?_erase (map : SortedMap κ α) (key other : κ) :
    (map.erase key).get? other = if other = key then none else map.get? other :=
  lookup_filter key other map.entries

variable [DecidableLT κ]

def insertEntry (key : κ) (value : α) : List (κ × α) → List (κ × α)
  | [] => [(key, value)]
  | (here, held) :: rest =>
    if key = here then
      (key, value) :: rest
    else if key < here then
      (key, value) :: (here, held) :: rest
    else
      (here, held) :: insertEntry key value rest

private theorem lookup_insertEntry (key other : κ) (value : α) (entries : List (κ × α)) :
    (insertEntry key value entries).lookup other = if other = key then some value else entries.lookup other := by
  induction entries with
  | nil => simp [insertEntry, lookup_cons_eq]
  | cons entry rest ih =>
    obtain ⟨here, held⟩ := entry
    unfold insertEntry
    split
    · next same => subst here; simp only [lookup_cons_eq]; split <;> rfl
    · next apart =>
      split
      · simp only [lookup_cons_eq]
      · simp only [lookup_cons_eq, ih]
        split
        · next same => subst here; simp [Ne.symm apart]
        · rfl

private theorem mem_insertEntry {key : κ} {value : α} {entries : List (κ × α)} {entry : κ × α}
    (member : entry ∈ insertEntry key value entries) : entry = (key, value) ∨ entry ∈ entries := by
  induction entries with
  | nil => exact .inl (List.mem_singleton.mp member)
  | cons first rest ih =>
    obtain ⟨here, held⟩ := first
    unfold insertEntry at member
    split at member
    · exact (List.mem_cons.mp member).imp id (List.mem_cons_of_mem _)
    · split at member
      · exact List.mem_cons.mp member
      · rcases List.mem_cons.mp member with same | member
        · exact .inr (List.mem_cons.mpr (.inl same))
        · exact (ih member).imp id (List.mem_cons_of_mem _)

variable [LE κ] [Std.IsLinearOrder κ] [Std.LawfulOrderLT κ]

theorem ascending_insertEntry (key : κ) (value : α) {entries : List (κ × α)} (ascending : Ascending entries) :
    Ascending (insertEntry key value entries) := by
  induction entries with
  | nil => exact List.pairwise_singleton _ _
  | cons first rest ih =>
    obtain ⟨here, held⟩ := first
    obtain ⟨above, later⟩ := List.pairwise_cons.mp ascending
    unfold insertEntry
    split
    · next same => subst here; exact List.pairwise_cons.mpr ⟨above, later⟩
    · next apart =>
      split
      · next before =>
        refine List.pairwise_cons.mpr ⟨fun entry member => ?_, ascending⟩
        rcases List.mem_cons.mp member with same | member
        · rw [same]; exact before
        · exact Std.lt_trans before (above entry member)
      · next after =>
        refine List.pairwise_cons.mpr ⟨fun entry member => ?_, ih later⟩
        rcases mem_insertEntry member with same | member
        · rw [same]
          exact Std.lt_of_le_of_ne (Std.not_lt.mp after) (Ne.symm apart)
        · exact above entry member

def insert (map : SortedMap κ α) (key : κ) (value : α) : SortedMap κ α :=
  ⟨insertEntry key value map.entries, ascending_insertEntry key value map.ascending⟩

theorem get?_insert (map : SortedMap κ α) (key other : κ) (value : α) :
    (map.insert key value).get? other = if other = key then some value else map.get? other :=
  lookup_insertEntry key other value map.entries

omit [DecidableLT κ] in
/-- A key below the first one is not in the list. -/
theorem lookup_below {key : κ} {first : κ × α} {rest : List (κ × α)} (ascending : Ascending (first :: rest))
    (below : key < first.1) : List.lookup key (first :: rest) = none := by
  apply lookup_eq_none
  intro entry member
  rcases List.mem_cons.mp member with same | member
  · rw [same]
    exact below
  · exact Std.lt_trans below ((List.pairwise_cons.mp ascending).1 entry member)

omit [DecidableLT κ] in
private theorem entries_eq_of_lookup_eq {left right : List (κ × α)} (leftAscending : Ascending left)
    (rightAscending : Ascending right) (same : ∀ key, left.lookup key = right.lookup key) : left = right := by
  induction left generalizing right with
  | nil =>
    cases right with
    | nil => rfl
    | cons entry rest =>
      have found := same entry.1
      rw [lookup_cons_eq, if_pos rfl] at found
      contradiction
  | cons entry rest ih =>
    obtain ⟨here, held⟩ := entry
    obtain ⟨above, later⟩ := List.pairwise_cons.mp leftAscending
    cases right with
    | nil => simpa [lookup_cons_eq] using same here
    | cons other tail =>
      obtain ⟨here', held'⟩ := other
      obtain ⟨above', later'⟩ := List.pairwise_cons.mp rightAscending
      have keys : here = here' := by
        rcases Std.lt_trichotomy here here' with before | equal | after
        · have found := same here
          rw [lookup_below rightAscending before, lookup_cons_eq, if_pos rfl] at found
          contradiction
        · exact equal
        · have found := same here'
          rw [lookup_below leftAscending after, lookup_cons_eq, if_pos rfl] at found
          contradiction
      subst keys
      have values : held = held' := by
        simpa [lookup_cons_eq] using same here
      subst values
      refine congrArg _ (ih later later' fun key => ?_)
      by_cases top : key = here
      · subst top
        rw [lookup_eq_none above, lookup_eq_none above']
      · simpa [lookup_cons_eq, top] using same key

omit [DecidableLT κ] in
theorem eq_of_get?_eq {left right : SortedMap κ α} (same : ∀ key, left.get? key = right.get? key) :
    left = right := by
  obtain ⟨entries, ascending⟩ := left
  obtain ⟨entries', ascending'⟩ := right
  have equal : entries = entries' := entries_eq_of_lookup_eq ascending ascending' same
  subst equal
  rfl

end SortedMap

end Kaleidoscope
