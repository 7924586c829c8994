import Kaleidoscope.Proofs.Expr.Grammar
import Kaleidoscope.Proofs.Reading

/-!
Climbing precedences gives the tree of the chain. Read on its own, what follows an operand is a list of operators and
operands. Climbing takes from the front of that list what binds at least as tightly as its threshold, goes into itself
wherever an operand is followed by a tighter operator, and joins what it has taken to the tree that the precedences ask
for.
-/

namespace Kaleidoscope

open Reading Grammar

namespace Expr

/-- The operators and operands after the first operand. An operator without a precedence is an error; one with a
negative precedence ends the chain. -/
def linksResult (table : PrecedenceTable) (operand : Rule) (tokens : List Token) : Result (List Link) :=
  match tokens with
  | [] => .ok ([], [])
  | token :: rest =>
    match token.operatorSymbol? with
    | none => .ok ([], token :: rest)
    | some op =>
      match table.get? op with
      | none => .error (.unknownBinaryOperator op)
      | some precedence =>
        if precedence < 0 then
          .ok ([], token :: rest)
        else
          match operand rest with
          | .error reason => .error reason
          | .ok (value, after) => (linksResult table operand after.1).mapping (⟨op, precedence, value⟩ :: ·)
termination_by tokens.length
decreasing_by exact Nat.lt_succ_of_lt after.2

/-- The operands and operators of a chain, before they are made a tree. -/
def parts (table : PrecedenceTable) (operand : Rule) (tokens : List Token) : Result (Expr × List Link) :=
  (operand tokens).result.andThen fun first rest => (linksResult table operand rest).mapping (first, ·)

/-- What climbing reads, without the proof that it is no longer than the tokens. -/
def climbResult (table : PrecedenceTable) (operand : Rule) (threshold : Int) (lhs : Expr) (tokens : List Token) :
    Result Expr :=
  (climb table operand threshold lhs tokens).map fun read => (read.1, read.2.1)

variable {table : PrecedenceTable} {rule : Rule}

theorem linksResult_nil : linksResult table rule [] = .ok ([], []) := by rw [linksResult.eq_def]

theorem linksResult_cons (token : Token) (rest : List Token) :
    linksResult table rule (token :: rest) =
      match token.operatorSymbol? with
      | none => .ok ([], token :: rest)
      | some op =>
        match table.get? op with
        | none => .error (.unknownBinaryOperator op)
        | some precedence =>
          if precedence < 0 then
            .ok ([], token :: rest)
          else
            (parts table rule rest).mapping fun (next, more) => ⟨op, precedence, next⟩ :: more := by
  rw [linksResult.eq_def]
  unfold parts
  dsimp only
  cases token.operatorSymbol? with
  | none => rfl
  | some op =>
    dsimp only
    cases table.get? op with
    | none => rfl
    | some precedence =>
      dsimp only
      by_cases negative : precedence < 0
      · rw [if_pos negative, if_pos negative]
      · rw [if_neg negative, if_neg negative]
        cases rule rest with
        | error reason => rfl
        | ok read =>
          obtain ⟨value, after, shorter⟩ := read
          simp only [result_ok, Result.andThen_ok]
          cases linksResult table rule after <;> rfl

theorem linksResult_stops {tokens : List Token} (stops : Stops tokens) :
    linksResult table rule tokens = .ok ([], tokens) := by
  cases tokens with
  | nil => exact linksResult_nil
  | cons token rest => rw [linksResult_cons, stops.no_symbol]

theorem linksResult_link {token : Token} {op : Char} {precedence : Int} (symbol : token.operatorSymbol? = some op)
    (known : table.get? op = some precedence) (nonnegative : 0 ≤ precedence) (rest : List Token) :
    linksResult table rule (token :: rest) =
      (parts table rule rest).mapping fun (next, more) => ⟨op, precedence, next⟩ :: more := by
  have positive : ¬ precedence < 0 := by omega
  rw [linksResult_cons, symbol]
  simp only [known, if_neg positive]

private theorem climbResult_nil (threshold : Int) (lhs : Expr) :
    climbResult table rule threshold lhs [] = .ok (lhs, []) := by
  rw [climbResult, climb.eq_def]
  rfl

/-- One turn of climbing: an operator and its operand, which goes first to a tighter operator behind it. -/
theorem climbResult_cons (threshold : Int) (lhs : Expr) (token : Token) (rest : List Token) :
    climbResult table rule threshold lhs (token :: rest) =
      match nextOperator table (token :: rest) with
      | .error reason => .error reason
      | .ok none => .ok (lhs, token :: rest)
      | .ok (some (op, precedence)) =>
        if precedence < threshold then
          .ok (lhs, token :: rest)
        else
          (rule rest).result.andThen fun rhs after =>
            match nextOperator table after with
            | .error reason => .error reason
            | .ok next =>
              (if next.any (precedence < ·.2) then climbResult table rule (precedence + 1) rhs after
                else .ok (rhs, after)).andThen fun rhs left =>
                  climbResult table rule threshold (.binary op lhs rhs) left := by
  rw [climbResult, climb.eq_def]
  dsimp only
  rcases nextOperator table (token :: rest) with reason | (_ | ⟨op, precedence⟩)
  · rfl
  · rfl
  · dsimp only
    split
    · rfl
    · cases rule rest with
      | error reason => rfl
      | ok read =>
        obtain ⟨rhs, after, shorter⟩ := read
        simp only [result_ok, Result.andThen_ok]
        cases nextOperator table after with
        | error reason => rfl
        | ok next =>
          by_cases tighter : next.any (precedence < ·.2) = true
          · simp only [if_pos tighter, climbResult]
            cases climb table rule (precedence + 1) rhs after with
            | error reason => rfl
            | ok read =>
              obtain ⟨rhs, left, fewer⟩ := read
              simp only [Except.map, Result.andThen_ok]
              cases climb table rule threshold (.binary op lhs rhs) left <;> rfl
          · simp only [if_neg tighter, climbResult, Result.andThen_ok]
            cases climb table rule threshold (.binary op lhs rhs) after <;> rfl

/-- What is read after an operand is decided by the operator that comes next. -/
theorem linksResult_next (token : Token) (rest : List Token) :
    linksResult table rule (token :: rest) =
      match nextOperator table (token :: rest) with
      | .error reason => .error reason
      | .ok none => .ok ([], token :: rest)
      | .ok (some (op, precedence)) =>
        if precedence < 0 then
          .ok ([], token :: rest)
        else
          (parts table rule rest).mapping fun (next, more) => ⟨op, precedence, next⟩ :: more := by
  rw [linksResult_cons, nextOperator, List.head?_cons, Option.bind_some]
  cases token.operatorSymbol? with
  | none => rfl
  | some op =>
    dsimp only
    cases table.get? op <;> rfl

private theorem linksResult_operand {token : Token} {rest after : List Token} {op : Char} {precedence : Int}
    {value : Expr}
    (found : nextOperator table (token :: rest) = .ok (some (op, precedence))) (nonnegative : 0 ≤ precedence)
    (read : (rule rest).result = .ok (value, after)) :
    linksResult table rule (token :: rest) =
      (linksResult table rule after).mapping (⟨op, precedence, value⟩ :: ·) := by
  have positive : ¬ precedence < 0 := by omega
  rw [linksResult_next, found]
  simp only [if_neg positive, parts, read, Result.andThen_ok]
  cases linksResult table rule after <;> rfl

private theorem linksResult_unknown {tokens : List Token} {reason : SyntaxError}
    (unknown : nextOperator table tokens = .error reason) : linksResult table rule tokens = .error reason := by
  cases tokens with
  | nil => contradiction
  | cons token rest => rw [linksResult_next, unknown]

/-- The tokens do not go on with an operator that binds at least as tightly as `threshold`. -/
def Below (table : PrecedenceTable) (threshold : Int) (tokens : List Token) : Prop :=
  ∃ next, nextOperator table tokens = .ok next ∧ ∀ entry ∈ next, entry.2 < threshold

theorem Below.linksResult {tokens : List Token} (below : Below table 0 tokens) :
    linksResult table rule tokens = .ok ([], tokens) := by
  cases tokens with
  | nil => exact linksResult_nil
  | cons token rest =>
    obtain ⟨next, found, low⟩ := below
    rw [linksResult_next, found]
    cases next with
    | none => rfl
    | some entry => exact if_pos (low entry rfl)

/-- Of the links that follow in `tokens`, those in `taken` bind at least as tightly as `threshold`, and the ones that
follow in `rest` start with one that does not. -/
structure Climbed (table : PrecedenceTable) (rule : Rule) (threshold : Int) (tokens : List Token) (taken : List Link)
    (rest : List Token) : Prop where
  tight : ∀ link ∈ taken, threshold ≤ link.precedence
  starts : ∀ link ∈ taken.head?, nextOperator table tokens = .ok (some (link.op, link.precedence))
  below : Below table threshold rest
  fewer : rest.length ≤ tokens.length
  links : linksResult table rule tokens = (linksResult table rule rest).mapping (taken ++ ·)

/-- What climbing comes to: the error that reading all the links gives, or the tree of links taken off the front. -/
inductive Climbs (table : PrecedenceTable) (rule : Rule) (threshold : Int) (lhs : Expr) (tokens : List Token) :
    Result Expr → Prop where
  | fails {reason : SyntaxError} (links : linksResult table rule tokens = .error reason) :
      Climbs table rule threshold lhs tokens (.error reason)
  | takes {taken : List Link} {rest : List Token} (climbed : Climbed table rule threshold tokens taken rest) :
      Climbs table rule threshold lhs tokens (.ok (Chain.tree lhs taken, rest))

variable {threshold precedence : Int} {lhs value : Expr} {op : Char} {token : Token} {tokens rest after : List Token}

theorem Climbs.stops (below : Below table threshold tokens) :
    Climbs table rule threshold lhs tokens (.ok (lhs, tokens)) := by
  have links : linksResult table rule tokens = (linksResult table rule tokens).mapping ([] ++ ·) := by
    cases linksResult table rule tokens <;> rfl
  show Climbs table rule threshold lhs tokens (.ok (Chain.tree lhs [], tokens))
  exact .takes ⟨List.forall_mem_nil _, fun _ member => by contradiction, below, Nat.le_refl _, links⟩

/-- An operand is completed by what climbs from it, unless no tighter operator follows. -/
theorem Climbs.ahead {next : Option (Char × Int)} (found : nextOperator table after = .ok next)
    (deeper : Climbs table rule (precedence + 1) value after (climbResult table rule (precedence + 1) value after)) :
    Climbs table rule (precedence + 1) value after
      (if next.any (precedence < ·.2) then climbResult table rule (precedence + 1) value after
        else .ok (value, after)) := by
  split
  · exact deeper
  · next loose =>
    refine .stops ⟨next, found, fun entry member => ?_⟩
    cases member
    have : ¬ precedence < entry.2 := by simpa using loose
    omega

/-- Where climbing goes into itself and comes back, the links taken inside are tighter than the operator before them,
and the first one taken afterwards is not. So the operator has got its whole right operand, and becomes a left one. -/
theorem Climbed.joins {left last : List Token} {inner outer : List Link} (nonnegative : 0 ≤ threshold)
    (found : nextOperator table (token :: rest) = .ok (some (op, precedence))) (enough : threshold ≤ precedence)
    (shorter : after.length < rest.length) (read : (rule rest).result = .ok (value, after))
    (inside : Climbed table rule (precedence + 1) after inner left)
    (outside : Climbed table rule threshold left outer last) :
    Chain.tree (.binary op lhs (Chain.tree value inner)) outer =
        Chain.tree lhs (⟨op, precedence, value⟩ :: (inner ++ outer)) ∧
      Climbed table rule threshold (token :: rest) (⟨op, precedence, value⟩ :: (inner ++ outer)) last := by
  have tighter : ∀ other ∈ inner, precedence < other.precedence :=
    fun other member => Int.add_one_le_iff.mp (inside.tight other member)
  have looser : ∀ next ∈ outer.head?, next.precedence ≤ precedence := by
    intro next member
    obtain ⟨entry, same, low⟩ := inside.below
    rw [outside.starts next member] at same
    cases same
    exact Int.lt_add_one_iff.mp (low _ rfl)
  refine ⟨(Chain.tree_fold lhs value op tighter looser).symm, ?_, ?_, outside.below, ?_, ?_⟩
  · refine List.forall_mem_cons.mpr ⟨enough, List.forall_mem_append.mpr ⟨fun other member => ?_, outside.tight⟩⟩
    exact Int.le_of_lt (Int.lt_of_le_of_lt enough (tighter other member))
  · intro link member
    cases member
    exact found
  · have less := outside.fewer
    have less' := inside.fewer
    simp only [List.length_cons]
    omega
  · rw [linksResult_operand found (Int.le_trans nonnegative enough) read, inside.links, outside.links]
    cases linksResult table rule last with
    | error reason => rfl
    | ok read =>
      obtain ⟨more, final⟩ := read
      simp

/-- One turn, once an operand is read: the call inside completes the operand, and the next turn starts where that call
ends. -/
theorem Climbs.turn (nonnegative : 0 ≤ threshold)
    (found : nextOperator table (token :: rest) = .ok (some (op, precedence))) (enough : threshold ≤ precedence)
    (shorter : after.length < rest.length) (read : (rule rest).result = .ok (value, after))
    (deeper : Climbs table rule (precedence + 1) value after (climbResult table rule (precedence + 1) value after))
    (later : ∀ (lhs : Expr) (left : List Token), left.length ≤ after.length →
      Climbs table rule threshold lhs left (climbResult table rule threshold lhs left)) :
    Climbs table rule threshold lhs (token :: rest)
      (match nextOperator table after with
      | .error reason => .error reason
      | .ok next =>
        (if next.any (precedence < ·.2) then climbResult table rule (precedence + 1) value after
          else .ok (value, after)).andThen fun rhs left =>
            climbResult table rule threshold (.binary op lhs rhs) left) := by
  have links := linksResult_operand found (Int.le_trans nonnegative enough) read
  cases ahead : nextOperator table after with
  | error reason => exact .fails (by rw [links, linksResult_unknown ahead]; rfl)
  | ok next =>
    have folded := Climbs.ahead ahead deeper
    dsimp only
    generalize (if next.any (precedence < ·.2) then climbResult table rule (precedence + 1) value after
      else .ok (value, after)) = middle at folded ⊢
    cases folded with
    | fails same => exact .fails (by rw [links, same]; rfl)
    | @takes inner left inside =>
      have whole := later (.binary op lhs (Chain.tree value inner)) left inside.fewer
      rw [Result.andThen_ok]
      generalize climbResult table rule threshold (.binary op lhs (Chain.tree value inner)) left = last at whole ⊢
      cases whole with
      | fails same => exact .fails (by rw [links, inside.links, same]; rfl)
      | takes outside =>
        obtain ⟨tree, climbed⟩ := inside.joins nonnegative found enough shorter read outside
        rw [tree]
        exact .takes climbed

/-- Climbing fails where reading all the links fails, with the same error. Otherwise it takes links off the front, and
gives their tree. -/
theorem climbs (nonnegative : 0 ≤ threshold) (lhs : Expr) (tokens : List Token) :
    Climbs table rule threshold lhs tokens (climbResult table rule threshold lhs tokens) := by
  -- Both calls are on fewer tokens: the one inside starts behind the operand, and the next turn where that one ends.
  induction size : tokens.length using Nat.strongRecOn generalizing threshold lhs tokens with
  | _ size ih =>
    subst size
    cases tokens with
    | nil =>
      rw [climbResult_nil]
      exact .stops ⟨none, rfl, by simp⟩
    | cons token rest =>
      rw [climbResult_cons]
      rcases found : nextOperator table (token :: rest) with reason | (_ | ⟨op, precedence⟩)
      · exact .fails (linksResult_unknown found)
      · exact .stops ⟨none, found, by simp⟩
      · dsimp only
        split
        · next low =>
          refine .stops ⟨_, found, fun entry member => ?_⟩
          cases member
          exact low
        · next tight =>
          have enough : threshold ≤ precedence := Int.not_lt.mp tight
          have high : 0 ≤ precedence := Int.le_trans nonnegative enough
          cases same : rule rest with
          | error reason =>
            refine .fails ?_
            rw [linksResult_next, found]
            simp [if_neg (Int.not_lt.mpr high), parts, same]
          | ok read =>
            obtain ⟨value, after, shorter⟩ := read
            have fewer : after.length < (token :: rest).length := Nat.lt_succ_of_lt shorter
            have read : (rule rest).result = .ok (value, after) := by rw [same, result_ok]
            simp only [result_ok, Result.andThen_ok]
            apply Climbs.turn nonnegative found enough shorter read
            · exact ih after.length fewer (by omega) value after rfl
            · intro lhs left less
              exact ih left.length (Nat.lt_of_le_of_lt less fewer) nonnegative lhs left rfl

/-- Without a threshold, climbing takes all the links. -/
theorem climbResult_zero (lhs : Expr) (tokens : List Token) :
    climbResult table rule 0 lhs tokens = (linksResult table rule tokens).mapping (Chain.tree lhs) := by
  have climbed : Climbs table rule 0 lhs tokens _ := climbs (Int.le_refl 0) lhs tokens
  generalize climbResult table rule 0 lhs tokens = result at climbed
  cases climbed with
  | fails same => rw [same, Result.mapping_error]
  | takes climbed =>
    rw [climbed.links, climbed.below.linksResult]
    simp

/-- A chain is read as the tree of its operands and operators. -/
theorem result_chain (tokens : List Token) :
    (chain table rule tokens).result =
      (parts table rule tokens).mapping fun (first, more) => Chain.tree first more := by
  have climbed : (chain table rule tokens).result =
      (rule tokens).result.andThen fun first rest => climbResult table rule 0 first rest := by
    unfold chain climbResult
    cases rule tokens with
    | error reason => rfl
    | ok read =>
      obtain ⟨first, rest, shorter⟩ := read
      simp only [result_ok, Result.andThen_ok]
      cases climb table rule 0 first rest <;> rfl
  rw [climbed, parts]
  cases (rule tokens).result with
  | error reason => rfl
  | ok read =>
    obtain ⟨first, rest⟩ := read
    simp only [Result.andThen_ok, climbResult_zero]
    cases linksResult table rule rest <;> rfl

end Expr

end Kaleidoscope
