import Kaleidoscope.Proofs.Expr.Completeness
import Kaleidoscope.Proofs.PrecedenceTable
import Kaleidoscope.Token.Scan

/-!
Reading accepts exactly the grammar: whatever is read has been derived, and what is derived is read if it does not nest
too deep.
-/

namespace Kaleidoscope

open Reading Grammar

namespace Grammar

/-- The tokens used form the phrase, nesting no deeper than `budget`, and the tokens left do not go on with it. -/
structure Whole (table : PrecedenceTable) (budget : Nat) (phrase : Phrase) (used rest : List Token) : Prop where
  derives : ∃ n ≤ budget, Derives table phrase n used
  stops : phrase.isOpen = true → Stops rest
  apart : Apart used rest

end Grammar

namespace Expr

variable {table : PrecedenceTable} {rule : Rule} {budget : Nat}

/-- A rule that reads nothing but expressions of the grammar. -/
def Rule.Sound (table : PrecedenceTable) (budget : Nat) (rule : Rule) : Prop :=
  ∀ tokens, (rule tokens).result.Takes tokens fun value used rest => Whole table budget (.expression value) used rest

/-! Whatever is read has been derived, one rule after the other. -/

private theorem takes_argumentList (sound : rule.Sound table budget) (tokens : List Token) :
    (argumentList rule tokens).Takes tokens fun args used _ =>
      ∃ inner, used = inner ++ [.mark .closeParen] ∧ ∃ n ≤ budget, Derives table (.arguments args) n inner := by
  induction size : tokens.length using Nat.strongRecOn generalizing tokens with
  | _ size ih =>
    subst size
    refine (sound tokens).andThen fun arg first after split whole => ?_
    obtain ⟨m, room, head⟩ := whole.derives
    by_cases comma : ∃ rest, after = .mark .comma :: rest
    · obtain ⟨rest, rfl⟩ := comma
      have shorter : rest.length < tokens.length := by
        rw [split, List.length_append, List.length_cons]
        omega
      rw [result_moreArguments_comma]
      refine .mapping (.skipping ((ih rest.length shorter rest rfl).mono fun args used left others => ?_))
      obtain ⟨inner, rfl, n, room', tail⟩ := others
      refine ⟨first ++ .mark .comma :: inner, by simp, max m n, ?_, .moreArguments head tail⟩
      omega
    · rw [result_moreArguments_end fun rest same => comma ⟨rest, same⟩]
      refine .mapping (.mapping ((Token.takes_expect _ _ _).mono fun _ used left same => ?_))
      subst same
      exact ⟨first, rfl, m, room, .oneArgument head⟩

private theorem takes_bindingsContinue (tokens : List Token) :
    (bindingsContinue tokens).result.Takes tokens fun more used _ =>
      used = [if more then .mark .comma else .keyword .within] := by
  unfold bindingsContinue
  split
  · exact .one rfl
  · rw [result_returning]
    exact .mapping (Token.takes_expect _ _ _)

private theorem takes_binding (sound : rule.Sound table budget) (tokens : List Token) :
    (binding rule tokens).result.Takes tokens fun bound used _ =>
      ∃ inner, used = .ident bound.1 :: .operator '=' :: inner ∧
        ∃ n ≤ budget, Derives table (.expression bound.2) n inner := by
  simp only [binding, result_andThen, result_mapping]
  refine (Token.takes_identifier tokens).andThen fun name used rest _ same => ?_
  subst same
  refine (Token.takes_expect _ _ rest).andThen fun _ used rest _ same => ?_
  subst same
  refine .mapping ((sound rest).mono fun value used rest whole => ?_)
  exact ⟨used, rfl, whole.derives⟩

private theorem takes_bindings (sound : rule.Sound table budget) (tokens : List Token) :
    (bindings rule tokens).result.Takes tokens fun bound used _ =>
      ∃ inner, used = inner ++ [.keyword .within] ∧ ∃ n ≤ budget, Derives table (.bindings bound) n inner := by
  induction size : tokens.length using Nat.strongRecOn generalizing tokens with
  | _ size ih =>
    subst size
    rw [result_bindings]
    refine (takes_binding sound tokens).andThen fun (name, value) used after split ⟨first, same, m, room, head⟩ => ?_
    subst same
    refine (takes_bindingsContinue after).andThen fun more used' rest split' same => ?_
    subst same
    cases more with
    | false =>
      intro bound left read
      cases read
      exact ⟨[], rfl, _, rfl, m, room, .oneBinding name head⟩
    | true =>
      have shorter : rest.length < tokens.length := by
        rw [split, split']
        simp
        omega
      refine .mapping ((ih rest.length shorter rest rfl).mono fun bound used left others => ?_)
      obtain ⟨inner, rfl, n, room', tail⟩ := others
      refine ⟨.ident name :: .operator '=' :: (first ++ .mark .comma :: inner), by simp, max m n, ?_,
        .moreBindings name head tail⟩
      omega

private theorem takes_bracketed (sound : rule.Sound table budget) (tokens : List Token) :
    (bracketed rule tokens).result.Takes tokens fun value used _ =>
      ∃ inner, used = inner ++ [.mark .closeParen] ∧ ∃ n ≤ budget, Derives table (.expression value) n inner := by
  simp only [bracketed, result_andThen, result_returning]
  refine (sound tokens).andThen fun value used rest _ whole => ?_
  refine .mapping ((Token.takes_expect _ _ _).mono fun _ used' rest same => ?_)
  subst same
  exact ⟨used, rfl, whole.derives⟩

private theorem takes_condTail (sound : rule.Sound table budget) (tokens : List Token) :
    (condTail rule tokens).result.Takes tokens fun value used rest =>
      Whole table budget (.primary true value) (.keyword .condition :: used) rest := by
  simp only [condTail, result_andThen, result_mapping]
  refine (sound tokens).andThen fun test first rest _ tested => ?_
  refine (Token.takes_expect _ _ rest).andThen fun _ used rest _ same => ?_
  subst same
  refine (sound rest).andThen fun yes second rest _ taken => ?_
  refine (Token.takes_expect _ _ rest).andThen fun _ used rest _ same => ?_
  subst same
  refine .mapping ((sound rest).mono fun no third rest otherwise => ?_)
  obtain ⟨l, room, tested⟩ := tested.derives
  obtain ⟨m, room', taken⟩ := taken.derives
  obtain ⟨n, room'', derived⟩ := otherwise.derives
  refine ⟨⟨max l (max m n), by omega, .cond tested taken derived⟩, otherwise.stops, ?_⟩
  exact apart_append (_ :: first) (fun _ => Token.noConfusion)
    (apart_append second (fun _ => Token.noConfusion) otherwise.apart)

/-- The two forms of what follows the end of a loop. -/
theorem takes_loopTail (sound : rule.Sound table budget) (tokens : List Token) :
    (loopTail rule tokens).result.Takes tokens fun tail used rest =>
      ∃ third fourth, Whole table budget (.expression tail.2) fourth rest ∧
        (tail.1 = none ∧ used = .keyword .within :: fourth ∨
          ∃ step, tail.1 = some step ∧ used = .mark .comma :: (third ++ .keyword .within :: fourth) ∧
            ∃ n ≤ budget, Derives table (.expression step) n third) := by
  unfold loopTail
  split
  · simp only [result_skipping, result_andThen, result_mapping]
    refine .skipping ((sound _).andThen fun step third rest _ stepped => ?_)
    refine (Token.takes_expect _ _ rest).andThen fun _ used rest _ same => ?_
    subst same
    refine .mapping ((sound rest).mono fun body fourth rest inner => ?_)
    exact ⟨third, fourth, inner, .inr ⟨step, rfl, rfl, stepped.derives⟩⟩
  · simp only [result_andThen, result_mapping]
    refine (Token.takes_expect _ _ _).andThen fun _ used rest _ same => ?_
    subst same
    refine .mapping ((sound rest).mono fun body fourth rest inner => ?_)
    exact ⟨[], fourth, inner, .inl ⟨rfl, rfl⟩⟩

private theorem takes_loopHead (sound : rule.Sound table budget) (tokens : List Token) :
    (loopHead rule tokens).result.Takes tokens fun value used rest =>
      Whole table budget (.primary true value) (.keyword .loop :: used) rest := by
  simp only [loopHead, result_andThen, result_mapping]
  refine (takes_binding sound tokens).andThen fun bound used rest _ found => ?_
  obtain ⟨name, start⟩ := bound
  obtain ⟨first, same, k, room, begun⟩ := found
  subst same
  refine (Token.takes_expect _ _ rest).andThen fun _ used rest _ same => ?_
  subst same
  refine (sound rest).andThen fun stop second rest _ ended => ?_
  obtain ⟨l, room', ended⟩ := ended.derives
  refine .mapping ((takes_loopTail sound rest).mono fun tail used rest found => ?_)
  obtain ⟨step, body⟩ := tail
  obtain ⟨third, fourth, whole, ⟨rfl, rfl⟩ | ⟨step, rfl, rfl, m, room'', stepped⟩⟩ := found
  · obtain ⟨n, last, inner⟩ := whole.derives
    refine ⟨⟨max k (max l n), by omega, .loop name begun ended inner⟩, whole.stops, ?_⟩
    exact apart_append (_ :: _ :: _ :: first) (fun _ => Token.noConfusion)
      (apart_append second (fun _ => Token.noConfusion) whole.apart)
  · obtain ⟨n, last, inner⟩ := whole.derives
    refine ⟨⟨max k (max l (max m n)), by omega, .stepLoop name begun ended stepped inner⟩, whole.stops, ?_⟩
    exact apart_append (_ :: _ :: _ :: first) (fun _ => Token.noConfusion)
      (apart_append second (fun _ => Token.noConfusion) (apart_append third (fun _ => Token.noConfusion) whole.apart))

private theorem takes_bindTail (sound : rule.Sound table budget) (tokens : List Token) :
    (bindTail rule tokens).result.Takes tokens fun value used rest =>
      Whole table budget (.primary true value) (.keyword .variable :: used) rest := by
  simp only [bindTail, result_andThen, result_mapping]
  refine (takes_bindings sound tokens).andThen fun bound used rest _ found => ?_
  obtain ⟨first, same, m, room, outer⟩ := found
  subst same
  refine .mapping ((sound rest).mono fun body second rest whole => ?_)
  obtain ⟨n, room', inner⟩ := whole.derives
  have same : first ++ [.keyword .within] ++ second = first ++ .keyword .within :: second := by simp
  rw [same]
  refine ⟨⟨max m n, by omega, .bind outer inner⟩, whole.stops, ?_⟩
  exact apart_append (_ :: first) (fun _ => Token.noConfusion) whole.apart

private theorem takes_arguments (sound : rule.Sound table budget) (tokens : List Token) :
    (arguments rule (2 ≤ budget) tokens).result.Takes tokens fun args used _ =>
      (args = [] ∧ 2 ≤ budget ∧ used = [.mark .closeParen]) ∨
        ∃ inner, used = inner ++ [.mark .closeParen] ∧ ∃ n ≤ budget, Derives table (.arguments args) n inner := by
  by_cases starts : Token.startsExpression tokens = true
  · rw [result_arguments_list starts]
    exact (takes_argumentList sound tokens).mono fun _ _ _ found => .inr found
  · unfold arguments
    rw [if_neg starts]
    by_cases room : 2 ≤ budget
    · rw [if_pos (decide_eq_true room), result_returning]
      refine .mapping ((Token.takes_expect _ _ tokens).mono fun _ used rest same => ?_)
      exact .inl ⟨rfl, room, same⟩
    · rw [if_neg (by simpa using room)]
      exact .error _

private theorem takes_primary (sound : rule.Sound table budget) (tokens : List Token) :
    (primary rule (2 ≤ budget) tokens).result.Takes tokens fun value used rest =>
      ∃ isOpen, Whole table budget (.primary isOpen value) used rest := by
  unfold primary
  split
  · exact .one ⟨false, ⟨0, Nat.zero_le _, .number _⟩, nofun, fun _ => nofun⟩
  · next callee rest =>
    rw [result_skipping, result_skipping, result_mapping]
    refine .skipping (.skipping (.mapping ((takes_arguments sound rest).mono fun args used left found => ?_)))
    rcases found with ⟨rfl, room, rfl⟩ | ⟨inner, rfl, n, room, derives⟩
    · exact ⟨false, ⟨2, room, .callNone callee⟩, nofun, apart_closed [_, _]⟩
    · exact ⟨false, ⟨n, room, .call callee derives⟩, nofun, apart_closed (_ :: _ :: inner)⟩
  · next name rest plain =>
    refine .one ⟨false, ⟨0, Nat.zero_le _, .var name⟩, nofun, fun _ _ next => ?_⟩
    obtain ⟨tail, same⟩ := List.head?_eq_some_iff.mp next
    exact plain tail same
  · next rest =>
    rw [result_skipping]
    refine .skipping ((takes_bracketed sound rest).mono fun value used left found => ?_)
    obtain ⟨inner, rfl, n, room, derives⟩ := found
    exact ⟨false, ⟨n, room, .bracketed derives⟩, nofun, apart_closed (_ :: inner)⟩
  · rw [result_skipping]
    exact .skipping ((takes_condTail sound _).mono fun _ _ _ whole => ⟨true, whole⟩)
  · rw [result_skipping]
    exact .skipping ((takes_loopHead sound _).mono fun _ _ _ whole => ⟨true, whole⟩)
  · rw [result_skipping]
    exact .skipping ((takes_bindTail sound _).mono fun _ _ _ whole => ⟨true, whole⟩)
  · exact .error _

/-- A rule that reads nothing but operands of the grammar. -/
def Rule.SoundOperand (table : PrecedenceTable) (budget : Nat) (rule : Rule) : Prop :=
  ∀ tokens, (rule tokens).result.Takes tokens fun value used rest =>
    ∃ isOpen, Whole table budget (.operand isOpen value) used rest

private theorem linksResult_cases (table : PrecedenceTable) (rule : Rule) (tokens : List Token) :
    Stops tokens ∧ linksResult table rule tokens = .ok ([], tokens) ∨
      (∃ reason, linksResult table rule tokens = .error reason) ∨
      ∃ token rest op precedence, tokens = token :: rest ∧ token.operatorSymbol? = some op ∧
        table.get? op = some precedence := by
  cases tokens with
  | nil => exact .inl ⟨nofun, linksResult_stops nofun⟩
  | cons token rest =>
    cases symbol : token.operatorSymbol? with
    | none => exact .inl ⟨stops_cons symbol, linksResult_stops (stops_cons symbol)⟩
    | some op =>
      cases known : table.get? op with
      | none =>
        refine .inr (.inl ⟨.unknownBinaryOperator op, ?_⟩)
        simp only [linksResult_cons, symbol, known]
      | some precedence => exact .inr (.inr ⟨token, rest, op, precedence, rfl, symbol, known⟩)

private theorem takes_parts (nonnegative : ∀ symbol precedence, table.get? symbol = some precedence → 0 ≤ precedence)
    (sound : rule.SoundOperand table budget) (tokens : List Token) :
    (parts table rule tokens).Takes tokens fun chain used rest =>
      Whole table budget (.chain chain.1 chain.2) used rest := by
  induction size : tokens.length using Nat.strongRecOn generalizing tokens with
  | _ size ih =>
    subst size
    refine (sound tokens).andThen fun first used after split ⟨isOpen, whole⟩ => ?_
    obtain ⟨m, room, head⟩ := whole.derives
    rcases linksResult_cases table rule after with
      ⟨stops, ends⟩ | ⟨reason, fails⟩ | ⟨token, rest, op, precedence, found⟩
    · rw [ends]
      intro read left same
      cases same
      refine ⟨[], rfl, ?_⟩
      show Whole table budget (.chain first []) (used ++ []) after
      rw [List.append_nil]
      exact ⟨⟨m, room, .last head⟩, fun _ => stops, whole.apart⟩
    · rw [fails]
      exact .error _
    · obtain ⟨rfl, symbol, known⟩ := found
      have closed : isOpen = false := by
        cases isOpen with
        | false => rfl
        | true =>
          have stuck := (whole.stops rfl).no_symbol
          rw [symbol] at stuck
          contradiction
      subst closed
      have shorter : rest.length < tokens.length := by
        rw [split, List.length_append, List.length_cons]
        omega
      rw [linksResult_link symbol known (nonnegative op precedence known)]
      refine .mapping (.mapping (.skipping ((ih rest.length shorter rest rfl).mono fun parts used' left tail => ?_)))
      obtain ⟨next, more⟩ := parts
      obtain ⟨n, room', derives⟩ := tail.derives
      have nameless : ∀ name, token ≠ .ident name := by
        rintro name rfl
        contradiction
      refine ⟨⟨max m n, by omega, .link head symbol known (nonnegative op precedence known) derives⟩, tail.stops, ?_⟩
      exact apart_append used nameless tail.apart

private theorem sound_expression
    (nonnegative : ∀ symbol precedence, table.get? symbol = some precedence → 0 ≤ precedence) (budget : Nat) :
    (expression table budget).Sound table budget ∧ (operand table budget).SoundOperand table budget := by
  induction budget with
  | zero => exact ⟨fun _ => .error _, fun _ => .error _⟩
  | succ budget ih =>
    refine ⟨fun tokens => ?_, fun tokens => ?_⟩
    · rw [expression, result_chain]
      refine .mapping ((takes_parts nonnegative ih.2 tokens).mono fun parts used rest whole => ?_)
      obtain ⟨first, more⟩ := parts
      obtain ⟨n, room, derives⟩ := whole.derives
      exact ⟨⟨n + 1, by omega, .expression derives⟩, whole.stops, whole.apart⟩
    · rw [operand]
      dsimp only
      split
      · next symbol rest =>
        rw [result_skipping, result_mapping]
        refine .skipping (.mapping ((ih.2 rest).mono fun value used left found => ?_))
        obtain ⟨isOpen, whole⟩ := found
        obtain ⟨n, room, derives⟩ := whole.derives
        exact ⟨isOpen, ⟨n + 1, by omega, .unary symbol derives⟩, whole.stops,
          apart_append [] (fun _ => Token.noConfusion) whole.apart⟩
      · refine (takes_primary ih.1 tokens).mono fun value used rest found => ?_
        obtain ⟨isOpen, whole⟩ := found
        obtain ⟨n, room, derives⟩ := whole.derives
        exact ⟨isOpen, ⟨n + 1, by omega, .primary derives⟩, whole.stops, whole.apart⟩

end Expr

/-- An expression is read off the front of the tokens exactly if the tokens used form a sentence of the grammar that
nests no deeper than allowed, and the tokens left neither go on with an operator nor, after an identifier, with
arguments. -/
theorem parse_accepts_iff {table : PrecedenceTable}
    (nonnegative : ∀ symbol precedence, table.get? symbol = some precedence → 0 ≤ precedence) (tokens rest : List Token)
    (value : Expr) :
    (Expr.parse table tokens).result = .ok (value, rest) ↔
      ∃ used n, tokens = used ++ rest ∧ Derives table (.expression value) n used ∧ n ≤ maxNesting ∧
        Stops rest ∧ Apart used rest := by
  constructor
  · intro read
    obtain ⟨used, rfl, whole⟩ := (Expr.sound_expression nonnegative maxNesting).1 tokens value rest read
    obtain ⟨n, room, derives⟩ := whole.derives
    exact ⟨used, n, rfl, derives, room, whole.stops rfl, whole.apart⟩
  · rintro ⟨used, n, rfl, derives, room, stops, apart⟩
    exact (derives.accepted maxNesting rest stops apart).1 room

/-- A chain that ends in an open tail, followed by a bracket that closes nothing. -/
def openTail : List Token := Token.significant "f() < if x then 1 else !y + z ) w"

theorem parse_accepts_iff_openTail :
    (∀ symbol precedence, PrecedenceTable.standard.get? symbol = some precedence → 0 ≤ precedence) ∧
      ∃ value used n, openTail = used ++ [.mark .closeParen, .ident "w"] ∧
        Derives .standard (.expression value) n used ∧ n ≤ maxNesting ∧
        Stops [.mark .closeParen, .ident "w"] ∧ Apart used [.mark .closeParen, .ident "w"] := by
  have nonnegative : ∀ symbol precedence, PrecedenceTable.standard.get? symbol = some precedence → 0 ≤ precedence := by
    intro symbol precedence found
    have range := PrecedenceTable.settled_standard.range symbol precedence found
    omega
  have left : ((Expr.parse .standard openTail).result.toOption.map Prod.snd) =
      some [.mark .closeParen, .ident "w"] := by decide +kernel
  cases read : (Expr.parse .standard openTail).result with
  | error reason =>
    rw [read] at left
    cases left
  | ok whole =>
    obtain ⟨value, rest⟩ := whole
    rw [read] at left
    obtain rfl : rest = [.mark .closeParen, .ident "w"] := Option.some.inj left
    exact ⟨nonnegative, value, (parse_accepts_iff nonnegative openTail _ value).mp read⟩

end Kaleidoscope
