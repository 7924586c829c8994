import Kaleidoscope.Proofs.PrecedenceTable
import Mathlib.Data.List.DropRight

/-!
Histories of precedence tables. Whatever has been done to a table, what is pending for a symbol is the value that the
symbol had before its first declaration since it was last committed or retracted, and retracting brings that value back.
-/

namespace Kaleidoscope.PrecedenceTable

/-- One operation on a table. -/
inductive Change where
  | set (symbol : Char) (precedence : Int)
  | remove (symbol : Char)
  | declare (symbol : Char) (precedence : Int)
  | commit (symbol : Char)
  | retract (symbol : Char)

namespace Change

def apply (t : PrecedenceTable) : Change → PrecedenceTable
  | set symbol precedence => t.set symbol precedence
  | remove symbol => t.remove symbol
  | declare symbol precedence => t.declare symbol precedence
  | commit symbol => t.commit symbol
  | retract symbol => t.retract symbol

def declares (symbol : Char) : Change → Bool
  | declare other _ => other = symbol
  | _ => false

/-- Whether nothing is left pending for `symbol`. -/
def settles (symbol : Char) : Change → Bool
  | commit other => other = symbol
  | retract other => other = symbol
  | _ => false

end Change

/-- The table once all of `changes` have been made. -/
def after (t : PrecedenceTable) (changes : List Change) : PrecedenceTable := changes.foldl Change.apply t

/-- The changes up to the last one that committed or retracted `symbol`. -/
def earlier (symbol : Char) (changes : List Change) : List Change := changes.rdropWhile (!·.settles symbol)

/-- The changes since then, or since the start. -/
def recent (symbol : Char) (changes : List Change) : List Change := changes.rtakeWhile (!·.settles symbol)

/-- The changes before the first declaration of `symbol` since it was last committed or retracted. -/
def beforeDeclared? (symbol : Char) (changes : List Change) : Option (List Change) :=
  if (recent symbol changes).any (·.declares symbol) then
    some (earlier symbol changes ++ (recent symbol changes).takeWhile (!·.declares symbol))
  else
    none

section

variable (t : PrecedenceTable) (symbol : Char) (changes : List Change) (change : Change)

private theorem after_concat : t.after (changes ++ [change]) = change.apply (t.after changes) := by
  rw [after, List.foldl_append]
  rfl

/-- What one change does to what is pending for a symbol. -/
theorem pending_apply : (change.apply t).pending.get? symbol =
    if change.settles symbol then none
    else if change.declares symbol then some ((t.pending.get? symbol).getD (t.get? symbol))
    else t.pending.get? symbol := by
  cases change with
  | set other precedence => rfl
  | remove other => rfl
  | declare other precedence =>
    by_cases same : symbol = other
    · simp [Change.apply, Change.settles, Change.declares, pending_declare, same]
    · simp [Change.apply, Change.settles, Change.declares, pending_declare, same, Ne.symm same]
  | commit other => simp [Change.apply, Change.settles, Change.declares, pending_commit, eq_comm]
  | retract other => simp [Change.apply, Change.settles, Change.declares, pending_retract, eq_comm]

private theorem earlier_append_recent : earlier symbol changes ++ recent symbol changes = changes :=
  List.rdropWhile_append_rtakeWhile

/-- A change settles the symbol, or comes after its first declaration, or is that declaration. -/
theorem beforeDeclared?_concat : beforeDeclared? symbol (changes ++ [change]) =
    if change.settles symbol then none
    else (beforeDeclared? symbol changes).or (if change.declares symbol then some changes else none) := by
  cases settles : change.settles symbol with
  | true =>
    have none : recent symbol (changes ++ [change]) = [] := List.rtakeWhile_concat_neg _ _ _ (by simp [settles])
    simp [beforeDeclared?, none]
  | false =>
    have before : earlier symbol (changes ++ [change]) = earlier symbol changes :=
      List.rdropWhile_concat_pos _ _ _ (by simp [settles])
    have since : recent symbol (changes ++ [change]) = recent symbol changes ++ [change] :=
      List.rtakeWhile_concat_pos _ _ _ (by simp [settles])
    rw [beforeDeclared?, before, since, List.any_append, beforeDeclared?]
    cases declared : (recent symbol changes).any (·.declares symbol) with
    | true =>
      have stops : (recent symbol changes ++ [change]).takeWhile (!·.declares symbol) =
          (recent symbol changes).takeWhile (!·.declares symbol) := by
        rw [List.takeWhile_append, if_neg]
        intro whole
        have none := List.takeWhile_eq_self_iff.mp ((List.takeWhile_prefix _).eq_of_length whole)
        obtain ⟨first, member, declares⟩ := List.any_eq_true.mp declared
        simpa [declares] using none first member
      simp [stops]
    | false =>
      have none : ∀ other ∈ recent symbol changes, (!other.declares symbol) = true := by
        simpa using declared
      cases declares : change.declares symbol with
      | true => simp [List.takeWhile_append_of_pos none, declares, earlier_append_recent]
      | false => simp [declares]

/-- What is pending for a symbol is what it had before its first pending declaration. -/
theorem pending_after (empty : ∀ symbol, t.pending.get? symbol = none) : (t.after changes).pending.get? symbol =
    (beforeDeclared? symbol changes).map fun before => (t.after before).get? symbol := by
  induction changes using List.reverseRecOn with
  | nil => exact empty symbol
  | append_singleton changes change ih =>
    rw [after_concat, pending_apply, ih, beforeDeclared?_concat]
    cases change.settles symbol with
    | true => rfl
    | false => cases beforeDeclared? symbol changes <;> cases change.declares symbol <;> rfl

end

variable {t : PrecedenceTable}

/-- After any changes to a table with nothing pending, retracting a symbol brings back what it had before its first
declaration since it was last committed or retracted, leaves it alone if there was none, and leaves the others alone. -/
theorem retract_after_changes (empty : ∀ symbol, t.pending.get? symbol = none) (changes : List Change) (symbol : Char) :
    ((t.after changes).retract symbol).get? symbol =
        (match beforeDeclared? symbol changes with
        | some before => (t.after before).get? symbol
        | none => (t.after changes).get? symbol) ∧
      (∀ other, other ≠ symbol → ((t.after changes).retract symbol).get? other = (t.after changes).get? other) ∧
      ((t.after changes).retract symbol).pending.get? symbol = none := by
  refine ⟨?_, fun other apart => ?_, ?_⟩
  · rw [get?_retract, if_pos rfl, pending_after t symbol changes empty]
    cases beforeDeclared? symbol changes <;> rfl
  · rw [get?_retract, if_neg apart]
  · rw [pending_retract, if_pos rfl]

/-- Two declarations of `<` after a third that was committed, with the symbol removed and set in between. -/
theorem retract_after_changes_overruled :
    let changed := standard.after [.declare '<' 5, .commit '<', .set '<' 7, .declare '<' 30, .remove '<',
      .declare '|' 9, .set '<' 8, .declare '<' 40]
    (changed.retract '<').get? '<' = some 7 ∧ (changed.retract '<').get? '|' = some 9 ∧
      (changed.retract '<').pending.get? '<' = none := by
  have nothing : ∀ symbol, standard.pending.get? symbol = none := fun _ => rfl
  obtain ⟨restored, others, settled⟩ := retract_after_changes nothing [.declare '<' 5, .commit '<', .set '<' 7,
    .declare '<' 30, .remove '<', .declare '|' 9, .set '<' 8, .declare '<' 40] '<'
  exact ⟨restored.trans (by decide), (others '|' (by decide)).trans (by decide), settled⟩

end Kaleidoscope.PrecedenceTable
