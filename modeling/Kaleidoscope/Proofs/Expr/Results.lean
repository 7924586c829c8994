import Kaleidoscope.Proofs.Expr.Climbing

/-!
The results of the rules for expressions, as equations: what a rule that repeats does with one more part, and what each
kind of operand comes down to.
-/

namespace Kaleidoscope

open Reading Grammar

namespace Expr

/-! The results of the rules that repeat. -/

/-- Arguments from the first one on. -/
def argumentList (expr : Rule) (tokens : List Token) : Result (List Expr) :=
  (expr tokens).result.andThen fun arg rest => (moreArguments expr rest).result.mapping (arg :: ·)

variable {table : PrecedenceTable} {rule : Rule}

theorem result_moreArguments_comma (rest : List Token) :
    (moreArguments rule (.mark .comma :: rest)).result = argumentList rule rest := by
  rw [moreArguments.eq_def, argumentList]
  dsimp only
  cases rule rest with
  | error reason => rfl
  | ok read =>
    obtain ⟨arg, after, shorter⟩ := read
    simp

theorem result_moreArguments_end {tokens : List Token} (last : ∀ rest, tokens ≠ .mark .comma :: rest) :
    (moreArguments rule tokens).result =
      (Token.expect (.mark .closeParen) [.token (.mark .comma)] tokens).result.mapping fun _ => [] := by
  rw [moreArguments.eq_def]
  split
  · exact absurd rfl (last _)
  · exact result_returning _ _

theorem result_arguments_list {tokens : List Token} (starts : Token.startsExpression tokens = true) (room : Bool) :
    (arguments rule room tokens).result = argumentList rule tokens := by
  simp [arguments, starts, argumentList]

theorem result_arguments_none (room : Bool) (rest : List Token) :
    (arguments rule room (.mark .closeParen :: rest)).result =
      if room then .ok ([], rest) else .error .nestingTooDeep := by
  have none : Token.startsExpression (.mark .closeParen :: rest) = false := rfl
  cases room <;> simp [arguments, none]

theorem result_bindings (tokens : List Token) :
    (bindings rule tokens).result = (binding rule tokens).result.andThen fun first rest =>
      (bindingsContinue rest).result.andThen fun more rest =>
        if more then (bindings rule rest).result.mapping (first :: ·) else .ok ([first], rest) := by
  rw [bindings.eq_def]
  cases binding rule tokens with
  | error reason => rfl
  | ok read =>
    obtain ⟨first, rest, shorter⟩ := read
    simp only [result_ok, Result.andThen_ok]
    rcases bindingsContinue rest with reason | ⟨_ | _, after, less⟩
    · rfl
    · rfl
    · simp

theorem result_bindingsContinue_end (tokens : List Token) (last : ∀ rest, tokens ≠ .mark .comma :: rest) :
    (bindingsContinue tokens).result =
      (Token.expect (.keyword .within) [.token (.mark .comma)] tokens).result.mapping fun _ => false := by
  unfold bindingsContinue
  split
  · exact absurd rfl (last _)
  · exact result_returning _ _

theorem result_loopTail_comma (rest : List Token) :
    (loopTail rule (.mark .comma :: rest)).result = (rule rest).result.andThen fun step rest =>
      (Token.expect (.keyword .within) [] rest).result.andThen fun _ rest =>
        (rule rest).result.mapping fun body => (some step, body) := by
  simp only [loopTail, result_skipping, result_andThen, result_mapping]

theorem result_loopTail_end {tokens : List Token} (last : ∀ rest, tokens ≠ .mark .comma :: rest) :
    (loopTail rule tokens).result =
      (Token.expect (.keyword .within) [.token (.mark .comma)] tokens).result.andThen fun _ rest =>
        (rule rest).result.mapping fun body => (none, body) := by
  unfold loopTail
  split
  · exact absurd rfl (last _)
  · simp only [result_andThen, result_mapping]

theorem result_primary_var {name : String} {rest : List Token} (apart : rest.head? ≠ some (.mark .openParen))
    (room : Bool) : (primary rule room (.ident name :: rest)).result = .ok (.var name, rest) := by
  cases rest with
  | nil => rfl
  | cons token rest =>
    cases token with
    | mark mark =>
      cases mark with
      | openParen => exact absurd rfl apart
      | _ => rfl
    | _ => rfl

theorem result_primary_call (callee : String) (room : Bool) (rest : List Token) :
    (primary rule room (.ident callee :: .mark .openParen :: rest)).result =
      (arguments rule room rest).result.mapping (.call callee) := by
  simp [primary]

theorem result_primary_bracketed (room : Bool) (rest : List Token) :
    (primary rule room (.mark .openParen :: rest)).result = (bracketed rule rest).result :=
  result_skipping _ _

theorem result_primary_cond (room : Bool) (rest : List Token) :
    (primary rule room (.keyword .condition :: rest)).result = (condTail rule rest).result :=
  result_skipping _ _

theorem result_primary_loop (room : Bool) (rest : List Token) :
    (primary rule room (.keyword .loop :: rest)).result = (loopHead rule rest).result :=
  result_skipping _ _

theorem result_primary_bind (room : Bool) (rest : List Token) :
    (primary rule room (.keyword .variable :: rest)).result = (bindTail rule rest).result :=
  result_skipping _ _

theorem result_operand_primary {token : Token} (plain : ∀ symbol, token ≠ .other symbol) (budget : Nat)
    (rest : List Token) :
    (operand table (budget + 1) (token :: rest)).result =
      (primary (expression table budget) (2 ≤ budget) (token :: rest)).result := by
  rw [operand]
  cases token with
  | other symbol => exact absurd rfl (plain symbol)
  | _ => rfl

end Expr

end Kaleidoscope
