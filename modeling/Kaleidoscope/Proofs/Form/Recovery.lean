import Kaleidoscope.Proofs.Form.Separation
import Kaleidoscope.Proofs.Form.Spelled
import Mathlib.Data.List.TakeWhile

/-!
Where the items of an input stand. Whatever is wrong with a form, the next item begins behind its first token and no
later than the next boundary, so no definition and no declaration is passed over.
-/

namespace Kaleidoscope

namespace Form

variable {source : String} {table : PrecedenceTable} {tokens : List Token} {position : Nat}

theorem next?_cons {first : Token} (begins : first ≠ .mark .semicolon) (table : PrecedenceTable) (rest : List Token) :
    next? table (first :: rest) = some (item table first rest) := by
  have same : (first :: rest).dropWhile (· = .mark .semicolon) = first :: rest :=
    List.dropWhile_cons_of_neg (by simp [begins])
  rw [next?_eq, same]

/-- Tokens up to their first boundary, and from there on. -/
theorem boundary_split (tokens : List Token) :
    (∀ token ∈ tokens, token.isBoundary = false) ∨
      ∃ before stop more, tokens = before ++ stop :: more ∧ (∀ token ∈ before, token.isBoundary = false) ∧
        stop.isBoundary = true := by
  induction tokens with
  | nil => exact .inl (List.forall_mem_nil _)
  | cons token rest ih =>
    by_cases boundary : token.isBoundary = true
    · exact .inr ⟨[], token, rest, rfl, List.forall_mem_nil _, boundary⟩
    · have plain : token.isBoundary = false := by simpa using boundary
      rcases ih with none | ⟨before, stop, more, same, free, stops⟩
      · exact .inl (List.forall_mem_cons.mpr ⟨plain, none⟩)
      · exact .inr ⟨token :: before, stop, more, by simp [same], List.forall_mem_cons.mpr ⟨plain, free⟩, stops⟩

/-- An item takes no boundary after its first token. -/
theorem taken_item {first : Token} {rest : List Token} (part : first :: rest <:+ Token.significant source)
    (begins : first ≠ .mark .semicolon) (table : PrecedenceTable) :
    ∃ taken, rest = taken ++ (item table first rest).rest ∧ ∀ token ∈ taken, token.isBoundary = false := by
  have found := next?_cons begins table rest
  have suffix : (item table first rest).rest <:+ rest := by
    rcases List.suffix_cons_iff.mp (spelled_next? part found).2 with whole | suffix
    · have shorter := next?_shorter found
      rw [whole] at shorter
      omega
    · exact suffix
  obtain ⟨taken, same⟩ := suffix
  refine ⟨taken, same.symm, ?_⟩
  rcases boundary_split rest with none | ⟨before, stop, more, split, free, boundary⟩
  · intro token member
    exact none token (same ▸ List.mem_append_left _ member)
  · -- Before the first boundary the item is read as if the input ended there, so it leaves that boundary.
    subst split
    rw [item_before boundary] at same
    have within : taken ++ (item table first before).rest = before :=
      List.append_cancel_right ((List.append_assoc _ _ (stop :: more)).trans same)
    intro token member
    exact free token (within ▸ List.mem_append_left _ member)

/-- An item of an input: its first token stands at `start`, and the first one that it leaves at `stop`. -/
structure Visit where
  start : Nat
  stop : Nat
  item : Item

/-- Where the first item of the tokens from `position` on stands. -/
def visit (position : Nat) (tokens : List Token) (item : Item) : Visit :=
  ⟨position + (tokens.takeWhile (· = .mark .semicolon)).length, position + (tokens.length - item.rest.length), item⟩

/-- The items that `fold` hands over, in tokens of which the first stands at `position`. -/
def visits {σ : Type} (handle : σ → PrecedenceTable → Except SyntaxError Form → σ × PrecedenceTable)
    (state : σ) (table : PrecedenceTable) (position : Nat) (tokens : List Token) : List Visit :=
  match _found : next? table tokens with
  | none => []
  | some item =>
    let (state, table) := handle state item.table item.form
    let first := visit position tokens item
    first :: visits handle state table first.stop item.rest
termination_by tokens.length
decreasing_by exact next?_shorter ‹_›

/-- The item stands where the visit says: it is what is read at `start`, it leaves the tokens from `stop` on, and none
of those between is a boundary. -/
structure Visit.Within (visit : Visit) (tokens : List Token) : Prop where
  forward : visit.start < visit.stop
  bounded : visit.stop ≤ tokens.length
  read : ∃ table, next? table (tokens.drop visit.start) = some visit.item
  left : visit.item.rest = tokens.drop visit.stop
  begins : tokens[visit.start]? ≠ some (.mark .semicolon)
  inside : ∀ position token, visit.start < position → position < visit.stop → tokens[position]? = some token →
    token.isBoundary = false

/-- An item passes over semicolons, begins with another token and takes no boundary after that. -/
theorem parts_next? {item : Item} (part : tokens <:+ Token.significant source)
    (found : next? table tokens = some item) :
    ∃ first taken, tokens = tokens.takeWhile (· = .mark .semicolon) ++ first :: (taken ++ item.rest) ∧
      next? table (first :: (taken ++ item.rest)) = some item ∧ first ≠ .mark .semicolon ∧
      ∀ token ∈ taken, token.isBoundary = false := by
  have parted := List.takeWhile_append_dropWhile (p := (· = Token.mark .semicolon)) (l := tokens)
  have dropped := (List.dropWhile_suffix (· = Token.mark .semicolon)).trans part
  rw [next?_eq] at found
  split at found
  · contradiction
  · next first rest begins =>
    cases found
    rw [begins] at dropped parted
    have head : first ≠ .mark .semicolon := by
      have head := List.head?_dropWhile_not (· = Token.mark .semicolon) tokens
      simpa [begins] using head
    obtain ⟨taken, same, free⟩ := taken_item dropped head table
    refine ⟨first, taken, ?_, ?_, head, free⟩
    · rw [← same, parted]
    · rw [← same, next?_cons head]

section

variable {gap taken : List Token} {first : Token} {item : Item}

private theorem visit_eq (parted : tokens = gap ++ first :: (taken ++ item.rest))
    (skipped : tokens.takeWhile (· = .mark .semicolon) = gap) :
    visit position tokens item = ⟨position + gap.length, position + gap.length + 1 + taken.length, item⟩ := by
  have length := congrArg List.length parted
  simp only [List.length_append, List.length_cons] at length
  have stop : position + (tokens.length - item.rest.length) = position + gap.length + 1 + taken.length := by omega
  rw [visit, skipped, stop]

private theorem skipped_of_parts {rest : List Token} (parted : tokens.drop position = gap ++ rest)
    (only : ∀ token ∈ gap, token = .mark .semicolon) :
    ∀ place, position ≤ place → place < position + gap.length → tokens[place]? = some (.mark .semicolon) := by
  intro place since before
  have inside : place - position < gap.length := by omega
  have same : tokens[place]? = gap[place - position]? := by
    rw [← List.getElem?_append_left inside, ← parted, List.getElem?_drop, Nat.add_sub_cancel' since]
  rw [same, List.getElem?_eq_getElem inside, only _ (List.getElem_mem inside)]

private theorem within_of_parts (parted : tokens.drop position = gap ++ first :: (taken ++ item.rest))
    (read : next? table (first :: (taken ++ item.rest)) = some item) (head : first ≠ .mark .semicolon)
    (free : ∀ token ∈ taken, token.isBoundary = false) :
    Visit.Within ⟨position + gap.length, position + gap.length + 1 + taken.length, item⟩ tokens := by
  have begun : tokens.drop (position + gap.length) = first :: (taken ++ item.rest) := by
    rw [← List.drop_drop, parted, List.drop_left]
  have inside : tokens.drop (position + gap.length + 1) = taken ++ item.rest := by
    rw [← List.drop_drop, begun, List.drop_succ_cons, List.drop_zero]
  have length := congrArg List.length inside
  simp only [List.length_drop, List.length_append] at length
  have bounded : position + gap.length < tokens.length := by
    have some := congrArg List.length begun
    simp only [List.length_drop, List.length_cons] at some
    omega
  constructor
  · simp only
    omega
  · simp only
    omega
  · exact ⟨table, begun ▸ read⟩
  · rw [← List.drop_drop, inside, List.drop_left]
  · rw [← Nat.add_zero (position + gap.length), ← List.getElem?_drop, begun]
    simpa using head
  · intro place token after before found
    simp only at after before
    have offset : place = position + gap.length + 1 + (place - (position + gap.length + 1)) := by omega
    rw [offset, ← List.getElem?_drop, inside, List.getElem?_append_left (by omega)] at found
    exact free token (List.mem_of_getElem? found)

end

/-- What holds of the items from a position on: they stand one behind the other, and every definition and declaration
begins one of them. -/
structure Covers (tokens : List Token) (position : Nat) (seen : List Visit) : Prop where
  within : ∀ visit ∈ seen, visit.Within tokens
  after : ∀ visit ∈ seen, position ≤ visit.start
  ordered : seen.Pairwise fun earlier later => earlier.stop ≤ later.start
  few : seen.length + position ≤ tokens.length
  heads : ∀ place, position ≤ place →
    tokens[place]? = some (.keyword .definition) ∨ tokens[place]? = some (.keyword .external) →
    seen.countP (·.start = place) = 1

private theorem covers_nil (only : ∀ token ∈ tokens.drop position, token = .mark .semicolon)
    (bounded : position ≤ tokens.length) : Covers tokens position [] where
  within := List.forall_mem_nil _
  after := List.forall_mem_nil _
  ordered := .nil
  few := by simpa using bounded
  heads := by
    intro place later opens
    have member : ∀ token, tokens[place]? = some token → token ∈ tokens.drop position := by
      intro token found
      have same : (tokens.drop position)[place - position]? = some token := by
        rw [List.getElem?_drop, Nat.add_sub_cancel' later, found]
      exact List.mem_of_getElem? same
    rcases opens with found | found <;> cases only _ (member _ found)

/-- One item more in front of those from where it stops. -/
theorem Covers.cons {visit : Visit} {seen : List Visit} (within : visit.Within tokens)
    (later : position ≤ visit.start)
    (skipped : ∀ place, position ≤ place → place < visit.start → tokens[place]? = some (.mark .semicolon))
    (covers : Covers tokens visit.stop seen) : Covers tokens position (visit :: seen) where
  within := List.forall_mem_cons.mpr ⟨within, covers.within⟩
  after := by
    refine List.forall_mem_cons.mpr ⟨later, fun other member => ?_⟩
    have := covers.after other member
    have := within.forward
    omega
  ordered := .cons covers.after covers.ordered
  few := by
    have := covers.few
    have := within.forward
    simp only [List.length_cons]
    omega
  heads := by
    intro place since opens
    have forward := within.forward
    by_cases inside : place < visit.stop
    · -- The token begins this item, for nothing else up to its end is a boundary; the others start behind it.
      have starts : visit.start = place := by
        rcases Nat.lt_trichotomy visit.start place with less | same | more
        · rcases opens with found | found <;> cases within.inside place _ less inside found
        · exact same
        · rw [skipped place since more] at opens
          simp at opens
      have others : seen.countP (·.start = place) = 0 := by
        apply List.countP_eq_zero.mpr
        intro other member
        have := covers.after other member
        simp only [decide_eq_true_eq]
        omega
      rw [List.countP_cons, others]
      simp [starts]
    · have behind : visit.start ≠ place := by omega
      rw [List.countP_cons, covers.heads place (by omega) opens]
      simp [behind]

variable {σ : Type} {handle : σ → PrecedenceTable → Except SyntaxError Form → σ × PrecedenceTable}

private theorem visits_of_none (state : σ) (none : next? table tokens = none) :
    visits handle state table position tokens = [] := by
  rw [visits.eq_def]
  split
  · rfl
  · next found =>
    rw [none] at found
    contradiction

private theorem visits_of_some (state : σ) {item : Item} (found : next? table tokens = some item) :
    visits handle state table position tokens =
      visit position tokens item ::
        visits handle (handle state item.table item.form).1 (handle state item.table item.form).2
          (visit position tokens item).stop item.rest := by
  rw [visits.eq_def]
  split
  · next none =>
    rw [none] at found
    contradiction
  · next found' =>
    cases found.symm.trans found'
    rfl

private theorem fold_eq_visits (state : σ) (table : PrecedenceTable) (position : Nat) (tokens : List Token) :
    fold handle state table tokens =
      (visits handle state table position tokens).foldl
        (fun reached visit => handle reached.1 visit.item.table visit.item.form) (state, table) := by
  cases found : next? table tokens with
  | none => rw [fold_of_none state found, visits_of_none state found, List.foldl_nil]
  | some item =>
    have shorter := next?_shorter found
    rw [fold_of_some state found, visits_of_some state found, List.foldl_cons]
    exact fold_eq_visits _ _ _ item.rest
termination_by tokens.length

private theorem covers_visits (source : String) (state : σ) (table : PrecedenceTable) (position : Nat)
    (bounded : position ≤ (Token.significant source).length) :
    Covers (Token.significant source) position
      (visits handle state table position ((Token.significant source).drop position)) := by
  have part := List.drop_suffix position (Token.significant source)
  cases found : next? table ((Token.significant source).drop position) with
  | none =>
    rw [visits_of_none state found]
    refine covers_nil ?_ bounded
    rw [next?_eq] at found
    split at found
    · next nothing =>
      intro token member
      simpa using List.dropWhile_eq_nil_iff.mp nothing token member
    · contradiction
  | some item =>
    obtain ⟨first, taken, parted, read, head, free⟩ := parts_next? part found
    have within := within_of_parts parted read head free
    rw [visits_of_some state found, visit_eq parted rfl, within.left]
    refine .cons within (Nat.le_add_right _ _) ?_ (covers_visits source _ _ _ within.bounded)
    exact skipped_of_parts parted fun token member => by simpa using List.mem_takeWhile_imp member
termination_by (Token.significant source).length - position
decreasing_by
  have := within.forward
  have := within.bounded
  simp only at *
  omega

/-- Reading goes forward whatever it meets. The items of a source are no more than its tokens and begin one behind the
other; none takes a boundary after its first token; and every definition and declaration begins exactly one of them. -/
theorem visits_progress (source : String) (state : σ) (table : PrecedenceTable) :
    let tokens := Token.significant source
    let seen := visits handle state table 0 tokens
    fold handle state table tokens =
        seen.foldl (fun reached visit => handle reached.1 visit.item.table visit.item.form) (state, table) ∧
      seen.length ≤ tokens.length ∧ seen.Pairwise (fun earlier later => earlier.start < later.start) ∧
      (∀ visit ∈ seen, visit.Within tokens) ∧
      ∀ place, tokens[place]? = some (.keyword .definition) ∨ tokens[place]? = some (.keyword .external) →
        seen.countP (·.start = place) = 1 := by
  have covers : Covers (Token.significant source) 0 (visits handle state table 0 (Token.significant source)) :=
    covers_visits source state table 0 (Nat.zero_le _)
  have increasing : (visits handle state table 0 (Token.significant source)).Pairwise
      fun earlier later => earlier.start < later.start := by
    apply covers.ordered.imp_of_mem
    intro earlier later member _ behind
    exact Nat.lt_of_lt_of_le (covers.within earlier member).forward behind
  exact ⟨fold_eq_visits state table 0 _, covers.few, increasing, covers.within,
    fun place => covers.heads place (Nat.zero_le _)⟩

end Form

end Kaleidoscope
