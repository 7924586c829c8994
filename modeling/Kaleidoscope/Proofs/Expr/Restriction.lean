import Kaleidoscope.Proofs.Expr.Chain
import Kaleidoscope.Proofs.Expr.Results

/-!
Reading under a restriction, a lower limit on nesting or fewer operators. It fails for the reason that goes with the
restriction, or it comes to the same as without. What is read is good as long as every rule makes good expressions of
good ones.
-/

namespace Kaleidoscope

open Reading

namespace Reading.Result

variable {α β : Type} {reason : SyntaxError} {narrow wide : Result α} {good : α → Prop} {better : β → Prop}

/-- What a restriction does to a reading: it fails for this reason, or it stays as it is and gives something good. -/
def Curbs (reason : SyntaxError) (narrow wide : Result α) (good : α → Prop) : Prop :=
  narrow = .error reason ∨ narrow = wide ∧ ∀ value rest, narrow = .ok (value, rest) → good value

theorem Curbs.refl (read : Result α) : Curbs reason read read fun _ => True := .inr ⟨rfl, fun _ _ _ => trivial⟩

theorem Curbs.ok {value : α} (holds : good value) (rest : List Token) :
    Curbs reason (.ok (value, rest)) (.ok (value, rest)) good := by
  refine .inr ⟨rfl, fun value' rest' same => ?_⟩
  cases same
  exact holds

theorem Curbs.error (other : SyntaxError) : Curbs reason (.error other) (.error other) good :=
  .inr ⟨rfl, fun _ _ read => by contradiction⟩

theorem Curbs.mono {worse : α → Prop} (curbs : Curbs reason narrow wide worse)
    (implies : ∀ value, worse value → good value) : Curbs reason narrow wide good :=
  curbs.imp_right fun ⟨same, holds⟩ => ⟨same, fun value rest read => implies value (holds value rest read)⟩

theorem Curbs.mapping {f : α → β} (curbs : Curbs reason narrow wide good)
    (keeps : ∀ value, good value → better (f value)) :
    Curbs reason (narrow.mapping f) (wide.mapping f) better := by
  rcases curbs with rfl | ⟨rfl, holds⟩
  · exact .inl rfl
  · refine .inr ⟨rfl, fun value rest read => ?_⟩
    cases narrow with
    | error reason => contradiction
    | ok whole =>
      cases read
      exact keeps _ (holds _ _ rfl)

theorem Curbs.andThen {next next' : α → List Token → Result β} (curbs : Curbs reason narrow wide good)
    (later : ∀ value rest, narrow = .ok (value, rest) → good value →
      Curbs reason (next value rest) (next' value rest) better) :
    Curbs reason (narrow.andThen next) (wide.andThen next') better := by
  rcases curbs with rfl | ⟨rfl, holds⟩
  · exact .inl rfl
  · cases narrow with
    | error other => exact .error other
    | ok whole => exact later _ _ rfl (holds _ _ rfl)

end Reading.Result

namespace Expr

open Reading.Result

/-- What every rule keeps: expressions are good at the next level if their parts are good at this one and the operators
of a chain are good to join them. -/
structure Closed (joins : Char → Prop) (good : Nat → Expr → Prop) : Prop where
  number (n : Nat) (value : Double) : good (n + 1) (.number value)
  var (n : Nat) (name : String) : good (n + 1) (.var name)
  unary {n : Nat} (op : Char) {operand : Expr} (inner : good n operand) : good (n + 1) (.unary op operand)
  cond {n : Nat} {test yes no : Expr} (tested : good n test) (first : good n yes) (second : good n no) :
    good (n + 1) (.cond test yes no)
  loop {n : Nat} (name : String) {start stop body : Expr} {step : Option Expr} (begun : good n start)
    (ended : good n stop) (stepped : ∀ inner, step = some inner → good n inner) (inner : good n body) :
    good (n + 1) (.loop name start stop step body)
  call {n : Nat} (callee : String) {args : List Expr} (each : ∀ arg ∈ args, good n arg) :
    good (n + 1) (.call callee args)
  bind {n : Nat} {bindings : List (String × Expr)} {body : Expr} (each : ∀ binding ∈ bindings, good n binding.2)
    (inner : good n body) : good (n + 1) (.bind bindings body)
  chain {n : Nat} {first : Expr} {links : List Link} (head : good n first)
    (each : ∀ link ∈ links, joins link.op ∧ good n link.operand) : good (n + 1) (Chain.tree first links)
  lift {n : Nat} {value : Expr} (inner : good n value) : good (n + 1) value

variable {reason : SyntaxError} {rule wide : Rule} {fine : Expr → Prop}

/-- A rule that is another one under a restriction, and reads good expressions only. -/
def Rule.Curbs (reason : SyntaxError) (rule wide : Rule) (fine : Expr → Prop) : Prop :=
  ∀ tokens, (rule tokens).result.Curbs reason (wide tokens).result fine

section

variable (curbs : rule.Curbs reason wide fine)

include curbs

private theorem curbs_argumentList (tokens : List Token) :
    (argumentList rule tokens).Curbs reason (argumentList wide tokens) fun args => ∀ arg ∈ args, fine arg := by
  induction size : tokens.length using Nat.strongRecOn generalizing tokens with
  | _ size ih =>
    subst size
    refine (curbs tokens).andThen fun arg after read first => ?_
    suffices (moreArguments rule after).result.Curbs reason (moreArguments wide after).result fun args =>
        ∀ arg ∈ args, fine arg from this.mapping fun args others => List.forall_mem_cons.mpr ⟨first, others⟩
    by_cases comma : ∃ rest, after = .mark .comma :: rest
    · obtain ⟨rest, rfl⟩ := comma
      obtain ⟨shorter, -⟩ := result_eq_ok read
      rw [result_moreArguments_comma, result_moreArguments_comma]
      exact ih rest.length (Nat.lt_of_succ_lt shorter) rest rfl
    · have last : ∀ rest, after ≠ .mark .comma :: rest := fun rest same => comma ⟨rest, same⟩
      rw [result_moreArguments_end last, result_moreArguments_end last]
      exact (Curbs.refl _).mapping fun _ _ => List.forall_mem_nil _

private theorem curbs_arguments {room room' : Bool} (rooms : room = room' ∨ room = false ∧ reason = .nestingTooDeep)
    (tokens : List Token) :
    (arguments rule room tokens).result.Curbs reason (arguments wide room' tokens).result
      fun args => ∀ arg ∈ args, fine arg := by
  by_cases starts : Token.startsExpression tokens = true
  · rw [result_arguments_list starts, result_arguments_list starts]
    exact curbs_argumentList curbs tokens
  · simp only [arguments, if_neg starts]
    rcases rooms with rfl | ⟨rfl, rfl⟩
    · cases room with
      | false => exact .error _
      | true =>
        rw [if_pos rfl, result_returning]
        exact (Curbs.refl _).mapping fun _ _ => List.forall_mem_nil _
    · exact .inl rfl

private theorem curbs_binding (tokens : List Token) :
    (binding rule tokens).result.Curbs reason (binding wide tokens).result fun bound => fine bound.2 := by
  simp only [binding, result_andThen, result_mapping]
  refine (Curbs.refl _).andThen fun name rest _ _ => ?_
  refine (Curbs.refl _).andThen fun _ rest _ _ => ?_
  exact (curbs rest).mapping fun _ init => init

private theorem curbs_bindings (tokens : List Token) :
    (bindings rule tokens).result.Curbs reason (bindings wide tokens).result
      fun bound => ∀ binding ∈ bound, fine binding.2 := by
  induction size : tokens.length using Nat.strongRecOn generalizing tokens with
  | _ size ih =>
    subst size
    rw [result_bindings, result_bindings]
    refine (curbs_binding curbs tokens).andThen fun first after read init => ?_
    refine (Curbs.refl _).andThen fun more rest read' _ => ?_
    obtain ⟨shorter, -⟩ := result_eq_ok read
    obtain ⟨shorter', -⟩ := result_eq_ok read'
    cases more with
    | false =>
      refine Curbs.ok ?_ rest
      exact List.forall_mem_singleton.mpr init
    | true =>
      refine (ih rest.length (Nat.lt_trans shorter' shorter) rest rfl).mapping fun bound others => ?_
      exact List.forall_mem_cons.mpr ⟨init, others⟩

private theorem curbs_bracketed (tokens : List Token) :
    (bracketed rule tokens).result.Curbs reason (bracketed wide tokens).result fine := by
  simp only [bracketed, result_andThen, result_returning]
  refine (curbs tokens).andThen fun value rest _ inner => ?_
  exact (Curbs.refl _).mapping fun _ _ => inner

private theorem curbs_loopTail (tokens : List Token) :
    (loopTail rule tokens).result.Curbs reason (loopTail wide tokens).result
      fun tail => (∀ inner, tail.1 = some inner → fine inner) ∧ fine tail.2 := by
  by_cases comma : ∃ rest, tokens = .mark .comma :: rest
  · obtain ⟨rest, rfl⟩ := comma
    rw [result_loopTail_comma, result_loopTail_comma]
    refine (curbs rest).andThen fun step rest _ stepped => ?_
    refine (Curbs.refl _).andThen fun _ rest _ _ => ?_
    refine (curbs rest).mapping fun body inner => ⟨fun _ same => ?_, inner⟩
    cases same
    exact stepped
  · have last : ∀ rest, tokens ≠ .mark .comma :: rest := fun rest same => comma ⟨rest, same⟩
    rw [result_loopTail_end last, result_loopTail_end last]
    refine (Curbs.refl _).andThen fun _ rest _ _ => ?_
    exact (curbs rest).mapping fun body inner => ⟨fun _ same => by contradiction, inner⟩

end

section

variable {joins : Char → Prop} {good : Nat → Expr → Prop} {n : Nat} (closed : Closed joins good)
  (curbs : rule.Curbs reason wide (good n))

include closed curbs

private theorem curbs_condTail (tokens : List Token) :
    (condTail rule tokens).result.Curbs reason (condTail wide tokens).result (good (n + 1)) := by
  simp only [condTail, result_andThen, result_mapping]
  refine (curbs tokens).andThen fun test rest _ tested => ?_
  refine (Curbs.refl _).andThen fun _ rest _ _ => ?_
  refine (curbs rest).andThen fun yes rest _ first => ?_
  refine (Curbs.refl _).andThen fun _ rest _ _ => ?_
  exact (curbs rest).mapping fun no second => closed.cond tested first second

private theorem curbs_loopHead (tokens : List Token) :
    (loopHead rule tokens).result.Curbs reason (loopHead wide tokens).result (good (n + 1)) := by
  simp only [loopHead, result_andThen, result_mapping]
  refine (curbs_binding curbs tokens).andThen fun bound rest _ begun => ?_
  refine (Curbs.refl _).andThen fun _ rest _ _ => ?_
  refine (curbs rest).andThen fun stop rest _ ended => ?_
  exact (curbs_loopTail curbs rest).mapping fun tail inner => closed.loop _ begun ended inner.1 inner.2

private theorem curbs_bindTail (tokens : List Token) :
    (bindTail rule tokens).result.Curbs reason (bindTail wide tokens).result (good (n + 1)) := by
  simp only [bindTail, result_andThen, result_mapping]
  refine (curbs_bindings curbs tokens).andThen fun bound rest _ each => ?_
  exact (curbs rest).mapping fun body inner => closed.bind each inner

private theorem curbs_primary {room room' : Bool} (rooms : room = room' ∨ room = false ∧ reason = .nestingTooDeep) :
    (primary rule room).Curbs reason (primary wide room') (good (n + 1)) := by
  intro tokens
  unfold primary
  split
  · exact Curbs.ok (closed.number n _) _
  · simp only [result_skipping, result_mapping]
    exact (curbs_arguments curbs rooms _).mapping fun args each => closed.call _ each
  · exact Curbs.ok (closed.var n _) _
  · simp only [result_skipping]
    exact (curbs_bracketed curbs _).mono fun _ inner => closed.lift inner
  · simp only [result_skipping]
    exact curbs_condTail closed curbs _
  · simp only [result_skipping]
    exact curbs_loopHead closed curbs _
  · simp only [result_skipping]
    exact curbs_bindTail closed curbs _
  · exact .error _

end

/-- The narrower of two tables, if the operators it lacks are what fails a reading; the operators it has may join. -/
structure Restricts (reason : SyntaxError) (joins : Char → Prop) (table wider : PrecedenceTable) : Prop where
  agree : ∀ symbol, table.get? symbol = wider.get? symbol ∨
    table.get? symbol = none ∧ reason = .unknownBinaryOperator symbol
  known : ∀ symbol, table.contains symbol = true → joins symbol

variable {joins : Char → Prop} {good : Nat → Expr → Prop} {table wider : PrecedenceTable}

private theorem curbs_parts (restricts : Restricts reason joins table wider) (curbs : rule.Curbs reason wide fine)
    (tokens : List Token) :
    (parts table rule tokens).Curbs reason (parts wider wide tokens)
      fun chain => fine chain.1 ∧ ∀ link ∈ chain.2, joins link.op ∧ fine link.operand := by
  induction size : tokens.length using Nat.strongRecOn generalizing tokens with
  | _ size ih =>
    subst size
    refine (curbs tokens).andThen fun first after read head => ?_
    have ends : Result.Curbs reason (.ok ([], after)) (.ok ([], after)) fun links : List Link =>
        ∀ link ∈ links, joins link.op ∧ fine link.operand := Curbs.ok (List.forall_mem_nil _) after
    suffices (linksResult table rule after).Curbs reason (linksResult wider wide after) fun links =>
        ∀ link ∈ links, joins link.op ∧ fine link.operand from this.mapping fun links each => ⟨head, each⟩
    cases after with
    | nil => rwa [linksResult_nil, linksResult_nil]
    | cons token rest =>
      obtain ⟨shorter, -⟩ := result_eq_ok read
      rw [linksResult_cons, linksResult_cons]
      cases token.operatorSymbol? with
      | none => exact ends
      | some op =>
        dsimp only
        rcases restricts.agree op with same | ⟨missing, rfl⟩
        · rw [← same]
          cases found : table.get? op with
          | none => exact .error _
          | some precedence =>
            have joined : joins op := restricts.known op (by simp [PrecedenceTable.contains, found])
            dsimp only
            split
            · exact ends
            · refine (ih rest.length (Nat.lt_of_succ_lt shorter) rest rfl).mapping fun chain fine => ?_
              exact List.forall_mem_cons.mpr ⟨⟨joined, fine.1⟩, fine.2⟩
        · rw [missing]
          exact .inl rfl

/-- Under a restriction, an expression is read as without it or fails for the reason of the restriction, and what is
read is good. -/
theorem curbs_expression (closed : Closed joins good) (restricts : Restricts reason joins table wider)
    {budget limit : Nat} (limits : budget = limit ∨ budget ≤ limit ∧ reason = .nestingTooDeep) :
    (expression table budget).Curbs reason (expression wider limit) (good budget) ∧
      (operand table budget).Curbs reason (operand wider limit) (good budget) := by
  induction budget generalizing limit with
  | zero =>
    rcases limits with rfl | ⟨_, rfl⟩
    · exact ⟨fun _ => .error _, fun _ => .error _⟩
    · exact ⟨fun _ => .inl rfl, fun _ => .inl rfl⟩
  | succ budget ih =>
    obtain ⟨limit, rfl⟩ : ∃ rest, limit = rest + 1 := ⟨limit - 1, by omega⟩
    have below : budget = limit ∨ budget ≤ limit ∧ reason = .nestingTooDeep :=
      limits.imp (by omega) fun ⟨lower, same⟩ => ⟨by omega, same⟩
    obtain ⟨inner, prefixed⟩ := ih below
    refine ⟨fun tokens => ?_, fun tokens => ?_⟩
    · rw [expression, expression, result_chain, result_chain]
      exact (curbs_parts restricts prefixed tokens).mapping fun chain fine => closed.chain fine.1 fine.2
    · rw [operand, operand]
      dsimp only
      split
      · simp only [result_skipping, result_mapping]
        exact (prefixed _).mapping fun value inner => closed.unary _ inner
      · refine curbs_primary closed inner ?_ tokens
        rcases limits with same | ⟨lower, same⟩
        · cases same
          exact .inl rfl
        · by_cases room : 2 ≤ budget
          · have room' : 2 ≤ limit := by omega
            exact .inl (by simp [room, room'])
          · exact .inr ⟨decide_eq_false room, same⟩

end Expr

end Kaleidoscope
