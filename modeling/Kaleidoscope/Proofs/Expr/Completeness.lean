import Kaleidoscope.Proofs.Expr.Results

/-!
What the grammar derives is read as what it stands for as long as its nesting leaves room, and is too deep otherwise.
-/

namespace Kaleidoscope

open Reading Grammar

namespace Expr

variable {table : PrecedenceTable} {rule : Rule}

/-! Each construct is read if its parts are. -/

section

variable {first second third fourth rest : List Token} {enough enough' enough'' enough''' : Prop}

private theorem within_bracketed {value : Expr} {tokens : List Token}
    (inner : (rule tokens).result.Within enough value (.mark .closeParen :: rest)) :
    (bracketed rule tokens).result.Within enough value rest := by
  simp only [bracketed, result_andThen, result_returning]
  apply inner.andThen_eq
  rw [Token.result_expect_self]
  rfl

private theorem within_condTail {test yes no : Expr} {tokens left right : List Token}
    (tested : (rule tokens).result.Within enough test (.keyword .consequent :: left))
    (taken : (rule left).result.Within enough' yes (.keyword .alternative :: right))
    (otherwise : (rule right).result.Within enough'' no rest) :
    (condTail rule tokens).result.Within (enough ∧ enough' ∧ enough'') (.cond test yes no) rest := by
  simp only [condTail, result_andThen, result_mapping]
  refine tested.andThen ?_
  rw [Token.result_expect_self, Result.andThen_ok]
  refine taken.andThen ?_
  rw [Token.result_expect_self, Result.andThen_ok]
  exact otherwise.mapping _

private theorem within_binding {name : String} {value : Expr} {tokens : List Token}
    (read : (rule tokens).result.Within enough value rest) :
    (binding rule (.ident name :: .operator '=' :: tokens)).result.Within enough (name, value) rest := by
  simp only [binding, result_andThen, result_mapping, Token.result_identifier, Result.andThen_ok,
    Token.result_expect_self]
  exact read.mapping _

private theorem within_loopHead {name : String} {start stop : Expr} {step : Option Expr} {body : Expr}
    {tokens left right : List Token} (begun : (rule tokens).result.Within enough start (.mark .comma :: left))
    (ended : (rule left).result.Within enough' stop right)
    (tail : (loopTail rule right).result.Within enough'' (step, body) rest) :
    (loopHead rule (.ident name :: .operator '=' :: tokens)).result.Within (enough ∧ enough' ∧ enough'')
      (.loop name start stop step body) rest := by
  simp only [loopHead, result_andThen, result_mapping]
  refine (within_binding begun).andThen ?_
  rw [Token.result_expect_self, Result.andThen_ok]
  exact ended.andThen (tail.mapping _)

private theorem within_loopTail {body : Expr} {tokens : List Token}
    (inner : (rule tokens).result.Within enough body rest) :
    (loopTail rule (.keyword .within :: tokens)).result.Within enough (none, body) rest := by
  simp only [loopTail, result_andThen, result_mapping, Token.result_expect_self, Result.andThen_ok]
  exact inner.mapping _

private theorem within_loopTail_step {step body : Expr} {tokens left : List Token}
    (stepped : (rule tokens).result.Within enough step (.keyword .within :: left))
    (inner : (rule left).result.Within enough' body rest) :
    (loopTail rule (.mark .comma :: tokens)).result.Within (enough ∧ enough') (some step, body) rest := by
  simp only [loopTail, result_skipping, result_andThen, result_mapping]
  refine stepped.andThen ?_
  rw [Token.result_expect_self, Result.andThen_ok]
  exact inner.mapping _

private theorem within_bindTail {bound : List (String × Expr)} {body : Expr} {tokens left : List Token}
    (outer : (bindings rule tokens).result.Within enough bound left)
    (inner : (rule left).result.Within enough' body rest) :
    (bindTail rule tokens).result.Within (enough ∧ enough') (.bind bound body) rest := by
  simp only [bindTail, result_andThen, result_mapping]
  exact outer.andThen (inner.mapping _)

private theorem within_bindings {name : String} {value : Expr} {tokens : List Token}
    (read : (rule tokens).result.Within enough value (.keyword .within :: rest)) :
    (bindings rule (.ident name :: .operator '=' :: tokens)).result.Within enough [(name, value)] rest := by
  rw [result_bindings]
  apply (within_binding read).andThen_eq
  simp [bindingsContinue]

private theorem within_bindings_more {name : String} {value : Expr} {bound : List (String × Expr)}
    {tokens left : List Token} (read : (rule tokens).result.Within enough value (.mark .comma :: left))
    (others : (bindings rule left).result.Within enough' bound rest) :
    (bindings rule (.ident name :: .operator '=' :: tokens)).result.Within (enough ∧ enough') ((name, value) :: bound)
      rest := by
  rw [result_bindings]
  refine (within_binding read).andThen ?_
  exact others.mapping _

end

end Expr

namespace Grammar

open Kaleidoscope.Expr

/-- How a phrase is read, with the tokens after it, when nesting may go `budget` levels deep. -/
def Phrase.Accepted (table : PrecedenceTable) (n : Nat) (used : List Token) : Phrase → Prop
  | .expression value => ∀ budget rest, Stops rest → Apart used rest →
      (Expr.expression table budget (used ++ rest)).result.Within (n ≤ budget) value rest
  | .chain first links => ∀ budget rest, Stops rest → Apart used rest →
      (parts table (Expr.operand table budget) (used ++ rest)).Within (n ≤ budget) (first, links) rest
  | .operand isOpen value => ∀ budget rest, (isOpen = true → Stops rest) → Apart used rest →
      (Expr.operand table budget (used ++ rest)).result.Within (n ≤ budget) value rest
  | .primary isOpen value => ∀ budget rest, (isOpen = true → Stops rest) → Apart used rest →
      (Expr.primary (Expr.expression table budget) (2 ≤ budget) (used ++ rest)).result.Within (n ≤ budget) value rest
  | .arguments values => ∀ budget rest,
      (argumentList (Expr.expression table budget) (used ++ .mark .closeParen :: rest)).Within (n ≤ budget) values rest
  | .bindings bound => ∀ budget rest,
      (Expr.bindings (Expr.expression table budget) (used ++ .keyword .within :: rest)).result.Within (n ≤ budget) bound
        rest

variable {table : PrecedenceTable}

/-- Every phrase of the grammar is read as what it stands for, unless it nests too deep. -/
theorem Derives.accepted {phrase : Phrase} {n : Nat} {used : List Token} (derives : Derives table phrase n used) :
    phrase.Accepted table n used := by
  induction derives with
  | expression inner ih =>
    intro budget rest stops apart
    cases budget with
    | zero => exact ⟨fun room => by omega, fun _ => rfl⟩
    | succ budget =>
      rw [Expr.expression, result_chain]
      exact ((ih budget rest stops apart).mapping _).congr (by omega)
  | last inner ih =>
    intro budget rest stops apart
    apply (ih budget rest (fun _ => stops) apart).andThen_eq
    rw [linksResult_stops stops]
    rfl
  | @link first next links op precedence token m n left right head symbol known nonnegative tail ihHead ihTail =>
    intro budget rest stops apart
    have closes : token ≠ .mark .openParen := by
      rintro rfl
      contradiction
    have begun := ihHead budget (token :: (right ++ rest)) (fun isOpen => by contradiction) (apart_of_head closes)
    rw [List.append_assoc, List.cons_append]
    refine (begun.andThen ?_).congr Nat.max_le
    rw [linksResult_link symbol known nonnegative]
    exact ((ihTail budget rest stops (apart.of_append left)).mapping _).mapping _
  | unary symbol inner ih =>
    intro budget rest stops apart
    cases budget with
    | zero => exact ⟨fun room => by omega, fun _ => rfl⟩
    | succ budget =>
      rw [List.cons_append, Expr.operand, result_skipping, result_mapping]
      exact ((ih budget rest stops (apart.of_append [])).mapping _).congr (by omega)
  | primary inner ih =>
    intro budget rest stops apart
    cases budget with
    | zero => exact ⟨fun room => by omega, fun _ => rfl⟩
    | succ budget =>
      have read := ih budget rest stops apart
      obtain ⟨token, tail, rfl, _, plain⟩ := inner.primary_head
      rw [List.cons_append] at read ⊢
      rw [result_operand_primary plain]
      exact read.congr (by omega)
  | number value =>
    intro budget rest stops apart
    exact ⟨fun _ => rfl, fun deep => by omega⟩
  | var name =>
    intro budget rest stops apart
    exact ⟨fun _ => result_primary_var (apart name rfl) _, fun deep => by omega⟩
  | callNone callee =>
    intro budget rest stops apart
    simp only [List.cons_append, List.nil_append, result_primary_call, result_arguments_none, decide_eq_true_eq]
    exact ⟨fun room => by rw [if_pos room]; rfl, fun deep => by rw [if_neg deep]; rfl⟩
  | @call callee args n tokens inner ih =>
    intro budget rest stops apart
    rw [List.cons_append, List.cons_append, List.append_assoc, result_primary_call,
      result_arguments_list (inner.startsExpression_arguments _)]
    exact (ih budget rest).mapping _
  | bracketed inner ih =>
    intro budget rest stops apart
    rw [List.cons_append, List.append_assoc, result_primary_bracketed]
    exact within_bracketed (ih budget _ (stops_cons rfl) (apart_of_head (by decide)))
  | @cond test yes no l m n first second third tested taken otherwise ihTest ihYes ihNo =>
    intro budget rest stops apart
    have last : Apart third rest := (apart.of_append (_ :: first)).of_append second
    rw [List.cons_append, List.append_assoc, List.cons_append, List.append_assoc, result_primary_cond]
    refine (within_condTail (ihTest budget _ (stops_cons rfl) (apart_of_head (by decide)))
      (ihYes budget _ (stops_cons rfl) (apart_of_head (by decide))) (ihNo budget rest (stops rfl) last)).congr ?_
    simp only [Nat.max_le]
  | @loop name start stop body l m n first second third begun ended inner ihStart ihStop ihBody =>
    intro budget rest stops apart
    have last : Apart third rest := (apart.of_append (_ :: _ :: _ :: first)).of_append second
    rw [List.cons_append, List.cons_append, List.cons_append, List.append_assoc, List.cons_append, List.append_assoc,
      result_primary_loop]
    refine (within_loopHead (ihStart budget _ (stops_cons rfl) (apart_of_head (by decide)))
      (ihStop budget _ (stops_cons rfl) (apart_of_head (by decide)))
      (within_loopTail (ihBody budget rest (stops rfl) last))).congr ?_
    simp only [Nat.max_le]
  | @stepLoop name start stop step body k l m n first second third fourth begun ended stepped inner ihStart ihStop
      ihStep ihBody =>
    intro budget rest stops apart
    have last : Apart fourth rest := ((apart.of_append (_ :: _ :: _ :: first)).of_append second).of_append third
    rw [List.cons_append, List.cons_append, List.cons_append, List.append_assoc, List.cons_append, List.append_assoc,
      List.cons_append, List.append_assoc, result_primary_loop]
    refine (within_loopHead (ihStart budget _ (stops_cons rfl) (apart_of_head (by decide)))
      (ihStop budget _ (stops_cons rfl) (apart_of_head (by decide)))
      (within_loopTail_step (ihStep budget _ (stops_cons rfl) (apart_of_head (by decide)))
        (ihBody budget rest (stops rfl) last))).congr ?_
    simp only [Nat.max_le]
  | @bind bound body m n first second outer inner ihBound ihBody =>
    intro budget rest stops apart
    have last : Apart second rest := apart.of_append (_ :: first)
    rw [List.cons_append, List.append_assoc, result_primary_bind]
    exact (within_bindTail (ihBound budget _) (ihBody budget rest (stops rfl) last)).congr Nat.max_le
  | oneArgument inner ih =>
    intro budget rest
    apply (ih budget _ (stops_cons rfl) (apart_of_head (by decide))).andThen_eq
    rw [result_moreArguments_end (fun _ => by simp), Token.result_expect_self]
    rfl
  | moreArguments head tail ihHead ihTail =>
    intro budget rest
    rw [List.append_assoc]
    refine ((ihHead budget _ (stops_cons rfl) (apart_of_head (by decide))).andThen ?_).congr Nat.max_le
    rw [result_moreArguments_comma]
    exact (ihTail budget rest).mapping _
  | oneBinding name inner ih =>
    intro budget rest
    exact within_bindings (ih budget _ (stops_cons rfl) (apart_of_head (by decide)))
  | moreBindings name head tail ihHead ihTail =>
    intro budget rest
    rw [List.cons_append, List.cons_append, List.append_assoc]
    exact (within_bindings_more (ihHead budget _ (stops_cons rfl) (apart_of_head (by decide)))
      (ihTail budget rest)).congr Nat.max_le

end Grammar

end Kaleidoscope
