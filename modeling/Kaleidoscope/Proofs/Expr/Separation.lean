import Kaleidoscope.Proofs.Expr.Results

/-!
Reading depends on nothing past a boundary. No rule takes a token that begins or separates forms, so the tokens before
one are read as if it were their end, except that an error at the end finds the boundary there.
-/

namespace Kaleidoscope

/-- The same error where the input does not end but goes on with `stop`. -/
def SyntaxError.meeting (stop : Token) : SyntaxError → SyntaxError
  | unexpected none expected => unexpected (some stop) expected
  | reason => reason

theorem Token.boundary_cases {stop : Token} (boundary : stop.isBoundary = true) :
    stop = .mark .semicolon ∨ stop = .keyword .definition ∨ stop = .keyword .external := by
  unfold isBoundary at boundary
  split at boundary <;> simp_all

open Reading

namespace Reading.Result

variable {α β : Type} {stop : Token} {more : List Token}

/-- The result for tokens that are followed by `stop` and `more`. -/
def before (stop : Token) (more : List Token) : Result α → Result α
  | .error reason => .error (reason.meeting stop)
  | .ok (value, rest) => .ok (value, rest ++ stop :: more)

/-- What stands before `stop` is read on its own. -/
def Separates (stop : Token) (more : List Token) (read : List Token → Result α) : Prop :=
  ∀ tokens, read (tokens ++ stop :: more) = (read tokens).before stop more

theorem before_mapping (read : Result α) (f : α → β) :
    (read.before stop more).mapping f = (read.mapping f).before stop more := by
  rcases read with reason | ⟨value, rest⟩ <;> rfl

private theorem before_andThen {first : Result α} {next : α → List Token → Result β}
    (later : ∀ value rest, first = .ok (value, rest) →
      next value (rest ++ stop :: more) = (next value rest).before stop more) :
    (first.before stop more).andThen next = (first.andThen next).before stop more := by
  rcases first with reason | ⟨value, rest⟩
  · rfl
  · exact later value rest rfl

/-- A reading that goes one way on a token that is no boundary, and another way otherwise. -/
theorem before_head {special : Token} (apart : stop ≠ special) {read taken other : List Token → Result α}
    (here : ∀ rest, read (special :: rest) = taken rest)
    (elsewhere : ∀ tokens, (∀ rest, tokens ≠ special :: rest) → read tokens = other tokens) {tokens : List Token}
    (first : ∀ rest, tokens = special :: rest → taken (rest ++ stop :: more) = (taken rest).before stop more)
    (otherwise : other (tokens ++ stop :: more) = (other tokens).before stop more) :
    read (tokens ++ stop :: more) = (read tokens).before stop more := by
  by_cases headed : ∃ rest, tokens = special :: rest
  · obtain ⟨rest, rfl⟩ := headed
    rw [List.cons_append, here, here]
    exact first rest rfl
  · have plain : ∀ rest, tokens ≠ special :: rest := fun rest same => headed ⟨rest, same⟩
    have plain' : ∀ rest, tokens ++ stop :: more ≠ special :: rest := by
      intro rest same
      cases tokens with
      | nil => exact apart (List.cons.inj same).1
      | cons token tail => exact plain tail (by rw [(List.cons.inj same).1])
    rw [elsewhere _ plain, elsewhere _ plain']
    exact otherwise

theorem Separates.mapping {read : List Token → Result α} (separates : Separates stop more read) (f : α → β) :
    Separates stop more fun tokens => (read tokens).mapping f := by
  intro tokens
  dsimp only
  rw [separates tokens, before_mapping]

theorem Separates.andThen {first : List Token → Result α} {next : α → List Token → Result β}
    (separates : Separates stop more first) (later : ∀ value, Separates stop more (next value)) :
    Separates stop more fun tokens => (first tokens).andThen next := by
  intro tokens
  dsimp only
  rw [separates tokens]
  exact before_andThen fun value rest _ => later value rest

end Reading.Result

open Reading.Result

variable {stop : Token} {more : List Token}

namespace Token

theorem separates_expect (token : Token) (apart : stop ≠ token) (others : List Expectation) :
    Separates stop more fun tokens => (expect token others tokens).result := by
  intro tokens
  cases tokens with
  | nil => simp [expect, apart, before, SyntaxError.meeting]
  | cons found rest =>
    by_cases same : found = token
    · simp [expect, same, before]
    · simp [expect, same, before, SyntaxError.meeting]

private theorem separates_identifier (boundary : stop.isBoundary = true) :
    Separates stop more fun tokens => (identifier tokens).result := by
  intro tokens
  cases tokens with
  | nil => rcases boundary_cases boundary with rfl | rfl | rfl <;> rfl
  | cons found rest => cases found <;> rfl

end Token

namespace Expr

open Token (separates_expect separates_identifier)

variable {rule : Rule}

/-- A rule for which tokens before a boundary are read on their own. -/
def Rule.Separates (stop : Token) (more : List Token) (rule : Rule) : Prop :=
  Result.Separates stop more fun tokens => (rule tokens).result

section

variable (boundary : stop.isBoundary = true) (separates : rule.Separates stop more)

include boundary

theorem boundary_ne_mark {mark : Mark} (other : mark ≠ .semicolon) : stop ≠ .mark mark := by
  rcases Token.boundary_cases boundary with rfl | rfl | rfl <;> simp [other.symm]

private theorem boundary_ne_keyword {word : Keyword} (notDefinition : word ≠ .definition)
    (notExternal : word ≠ .external) : stop ≠ .keyword word := by
  rcases Token.boundary_cases boundary with rfl | rfl | rfl <;> simp [notDefinition.symm, notExternal.symm]

private theorem boundary_ne_operator {symbol : Char} : stop ≠ .operator symbol := by
  rcases Token.boundary_cases boundary with rfl | rfl | rfl <;> simp

include separates

private theorem separates_links (table : PrecedenceTable) : Result.Separates stop more (linksResult table rule) := by
  intro tokens
  induction size : tokens.length using Nat.strongRecOn generalizing tokens with
  | _ size ih =>
    subst size
    cases tokens with
    | nil =>
      have ends : stop.operatorSymbol? = none := by
        rcases Token.boundary_cases boundary with rfl | rfl | rfl <;> rfl
      rw [linksResult_nil, List.nil_append, linksResult_cons, ends]
      rfl
    | cons token rest =>
      rw [List.cons_append, linksResult_cons, linksResult_cons]
      split
      · rfl
      · split
        · rfl
        · split
          · rfl
          · have first : (rule (rest ++ stop :: more)).result = (rule rest).result.before stop more := separates rest
            rw [← before_mapping, parts, parts, first]
            congr 1
            refine before_andThen fun value after read => ?_
            obtain ⟨shorter, _⟩ := result_eq_ok read
            rw [ih after.length (Nat.lt_succ_of_lt shorter) after rfl, before_mapping]

private theorem separates_chain (table : PrecedenceTable) : Rule.Separates stop more (chain table rule) := by
  have whole : Result.Separates stop more (parts table rule) :=
    separates.andThen fun first => (separates_links boundary separates table).mapping _
  unfold Rule.Separates
  simp only [result_chain]
  exact whole.mapping _

private theorem separates_argumentList : Result.Separates stop more (argumentList rule) := by
  intro tokens
  induction size : tokens.length using Nat.strongRecOn generalizing tokens with
  | _ size ih =>
    subst size
    have first : (rule (tokens ++ stop :: more)).result = (rule tokens).result.before stop more := separates tokens
    rw [argumentList, argumentList, first]
    refine before_andThen fun arg after read => ?_
    obtain ⟨shorter, _⟩ := result_eq_ok read
    rw [← before_mapping]
    congr 1
    refine before_head (boundary_ne_mark boundary (by decide)) result_moreArguments_comma
      (fun _ plain => result_moreArguments_end plain) (fun rest same => ?_) ?_
    · subst same
      exact ih rest.length (Nat.lt_of_succ_lt shorter) rest rfl
    · exact (separates_expect _ (boundary_ne_mark boundary (by decide)) _).mapping _ after

private theorem separates_arguments (room : Bool) :
    Result.Separates stop more fun tokens => (arguments rule room tokens).result := by
  intro tokens
  have starts : Token.startsExpression (tokens ++ stop :: more) = Token.startsExpression tokens := by
    cases tokens with
    | nil => rcases Token.boundary_cases boundary with rfl | rfl | rfl <;> rfl
    | cons token rest =>
      rw [List.cons_append]
      unfold Token.startsExpression
      split <;> simp_all
  dsimp only
  by_cases any : Token.startsExpression tokens = true
  · rw [result_arguments_list any, result_arguments_list (starts.trans any)]
    exact separates_argumentList boundary separates tokens
  · have none : ¬ Token.startsExpression (tokens ++ stop :: more) = true := by rwa [starts]
    unfold arguments
    rw [if_neg any, if_neg none]
    cases room with
    | false => rfl
    | true =>
      rw [if_pos rfl, if_pos rfl, result_returning, result_returning]
      exact (separates_expect _ (boundary_ne_mark boundary (by decide)) _).mapping _ tokens

private theorem separates_binding : Result.Separates stop more fun tokens => (binding rule tokens).result := by
  simp only [binding, result_andThen, result_mapping]
  refine (separates_identifier boundary).andThen fun name => ?_
  refine (separates_expect _ (boundary_ne_operator boundary) _).andThen fun _ => ?_
  exact separates.mapping _

omit separates in
private theorem separates_bindingsContinue :
    Result.Separates stop more fun tokens => (bindingsContinue tokens).result := by
  intro tokens
  refine before_head (boundary_ne_mark boundary (by decide)) (fun rest => rfl) result_bindingsContinue_end
    (fun rest _ => rfl) ?_
  exact (separates_expect _ (boundary_ne_keyword boundary (by decide) (by decide)) _).mapping _ tokens

private theorem separates_bindings : Result.Separates stop more fun tokens => (bindings rule tokens).result := by
  intro tokens
  induction size : tokens.length using Nat.strongRecOn generalizing tokens with
  | _ size ih =>
    subst size
    have first : (binding rule (tokens ++ stop :: more)).result = (binding rule tokens).result.before stop more :=
      separates_binding boundary separates tokens
    dsimp only
    rw [result_bindings, result_bindings, first]
    refine before_andThen fun bound after read => ?_
    have next : (bindingsContinue (after ++ stop :: more)).result = (bindingsContinue after).result.before stop more :=
      separates_bindingsContinue boundary after
    rw [next]
    refine before_andThen fun goesOn rest read' => ?_
    cases goesOn with
    | false => rfl
    | true =>
      obtain ⟨shorter, _⟩ := result_eq_ok read
      obtain ⟨shorter', _⟩ := result_eq_ok read'
      simp only [if_true]
      rw [← before_mapping]
      exact congrArg _ (ih rest.length (Nat.lt_trans shorter' shorter) rest rfl)

private theorem separates_loopTail : Result.Separates stop more fun tokens => (loopTail rule tokens).result := by
  intro tokens
  refine before_head (boundary_ne_mark boundary (by decide)) result_loopTail_comma
    (fun _ plain => result_loopTail_end plain) (fun rest _ => ?_) ?_
  · refine separates.andThen (fun step => ?_) rest
    refine (separates_expect _ (boundary_ne_keyword boundary (by decide) (by decide)) _).andThen fun _ => ?_
    exact separates.mapping _
  · refine (separates_expect _ (boundary_ne_keyword boundary (by decide) (by decide)) _).andThen (fun _ => ?_) tokens
    exact separates.mapping _

private theorem separates_loopHead : Rule.Separates stop more (loopHead rule) := by
  unfold Rule.Separates
  simp only [loopHead, result_andThen, result_mapping]
  refine (separates_binding boundary separates).andThen fun bound => ?_
  refine (separates_expect _ (boundary_ne_mark boundary (by decide)) _).andThen fun _ => ?_
  exact separates.andThen fun stop => (separates_loopTail boundary separates).mapping _

private theorem separates_bracketed : Rule.Separates stop more (bracketed rule) := by
  unfold Rule.Separates
  simp only [bracketed, result_andThen, result_returning]
  refine separates.andThen fun inner => ?_
  exact (separates_expect _ (boundary_ne_mark boundary (by decide)) _).mapping _

private theorem separates_condTail : Rule.Separates stop more (condTail rule) := by
  unfold Rule.Separates
  simp only [condTail, result_andThen, result_mapping]
  refine separates.andThen fun test => ?_
  refine (separates_expect _ (boundary_ne_keyword boundary (by decide) (by decide)) _).andThen fun _ => ?_
  refine separates.andThen fun yes => ?_
  refine (separates_expect _ (boundary_ne_keyword boundary (by decide) (by decide)) _).andThen fun _ => ?_
  exact separates.mapping _

private theorem separates_bindTail : Rule.Separates stop more (bindTail rule) := by
  unfold Rule.Separates
  simp only [bindTail, result_andThen, result_mapping]
  exact (separates_bindings boundary separates).andThen fun bound => separates.mapping _

private theorem separates_primary (room : Bool) : Rule.Separates stop more (primary rule room) := by
  intro tokens
  dsimp only
  cases tokens with
  | nil => rcases Token.boundary_cases boundary with rfl | rfl | rfl <;> rfl
  | cons token rest =>
    rw [List.cons_append]
    cases token with
    | ident name =>
      have after : Result.Separates stop more fun rest => (primary rule room (.ident name :: rest)).result := by
        intro rest
        have apart : stop ≠ .mark .openParen := boundary_ne_mark boundary (by decide)
        refine before_head apart (result_primary_call name room)
          (fun _ plain => result_primary_var (by simpa [List.head?_eq_some_iff] using plain) room)
          (fun rest _ => ?_) rfl
        exact (separates_arguments boundary separates room).mapping _ rest
      exact after rest
    | mark mark =>
      cases mark with
      | openParen =>
        rw [result_primary_bracketed, result_primary_bracketed]
        exact separates_bracketed boundary separates rest
      | _ => rfl
    | keyword word =>
      cases word with
      | condition =>
        rw [result_primary_cond, result_primary_cond]
        exact separates_condTail boundary separates rest
      | loop =>
        rw [result_primary_loop, result_primary_loop]
        exact separates_loopHead boundary separates rest
      | «variable» =>
        rw [result_primary_bind, result_primary_bind]
        exact separates_bindTail boundary separates rest
      | _ => rfl
    | _ => rfl

end

private theorem separates_expression (boundary : stop.isBoundary = true) (table : PrecedenceTable) (budget : Nat) :
    (expression table budget).Separates stop more ∧ (operand table budget).Separates stop more := by
  induction budget with
  | zero => exact ⟨fun _ => rfl, fun _ => rfl⟩
  | succ budget ih =>
    refine ⟨separates_chain boundary ih.2 table, fun tokens => ?_⟩
    have plain := separates_primary boundary ih.1 (2 ≤ budget) tokens
    cases tokens with
    | nil => rcases Token.boundary_cases boundary with rfl | rfl | rfl <;> exact plain
    | cons token rest =>
      cases token with
      | other symbol =>
        simp only [List.cons_append, operand, result_skipping, result_mapping]
        exact ih.2.mapping _ rest
      | _ => exact plain

theorem separates_parse (boundary : stop.isBoundary = true) (table : PrecedenceTable) :
    (parse table).Separates stop more :=
  (separates_expression boundary table maxNesting).1

end Expr

end Kaleidoscope
