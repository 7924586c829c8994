import Kaleidoscope.Proofs.Expr.Chain
import Kaleidoscope.Proofs.Expr.Results
import Kaleidoscope.Proofs.PrecedenceTable

/-!
How the operators of a chain group. The tree of a chain is built from the left with a stack; it is the one that splits
the chain at the last of its operators with the least precedence, and each part again.
-/

namespace Kaleidoscope

namespace Chain

/-- Of the operators of a chain, the last one with the least precedence stands between `before` and `after`. -/
structure Weakest (before : List Link) (link : Link) (after : List Link) : Prop where
  least : ∀ other ∈ before, link.precedence ≤ other.precedence
  last : ∀ other ∈ after, link.precedence < other.precedence

/-- Splits a chain at the last of its operators with the least precedence. -/
def weakest? : List Link → Option (List Link × Link × List Link)
  | [] => none
  | link :: links =>
    match weakest? links with
    | none => some ([], link, [])
    | some (before, weakest, after) =>
      if link.precedence < weakest.precedence then
        some ([], link, links)
      else
        some (link :: before, weakest, after)

variable {links before after : List Link} {link : Link}

private theorem weakest?_eq_none (none : weakest? links = none) : links = [] := by
  cases links with
  | nil => rfl
  | cons link links =>
    rw [weakest?] at none
    split at none
    · contradiction
    · split at none <;> contradiction

private theorem weakest?_sound (found : weakest? links = some (before, link, after)) :
    links = before ++ link :: after ∧ Weakest before link after := by
  induction links generalizing before link after with
  | nil => contradiction
  | cons head tail ih =>
    rw [weakest?] at found
    split at found
    · next none =>
      cases found
      cases weakest?_eq_none none
      exact ⟨rfl, List.forall_mem_nil _, List.forall_mem_nil _⟩
    · next front weakest back same =>
      obtain ⟨split, least, last⟩ := ih same
      split at found
      · next less =>
        cases found
        refine ⟨rfl, List.forall_mem_nil _, fun other member => ?_⟩
        rw [split] at member
        rcases List.mem_append.mp member with inFront | later
        · exact Int.lt_of_lt_of_le less (least other inFront)
        · rcases List.mem_cons.mp later with rfl | inBack
          · exact less
          · exact Int.lt_trans less (last other inBack)
      · next most =>
        cases found
        refine ⟨by rw [split, List.cons_append], List.forall_mem_cons.mpr ⟨?_, least⟩, last⟩
        exact Int.not_lt.mp most

private theorem weakest?_shorter (found : weakest? links = some (before, link, after)) :
    before.length < links.length ∧ after.length < links.length := by
  obtain ⟨rfl, _⟩ := weakest?_sound found
  simp only [List.length_append, List.length_cons]
  omega

/-- The tree of a chain as its precedences ask for: the weakest operator is the root, and of several the last. -/
def grouped (first : Expr) (links : List Link) : Expr :=
  match _found : weakest? links with
  | none => first
  | some (before, link, after) => .binary link.op (grouped first before) (grouped link.operand after)
termination_by links.length
decreasing_by
  · exact (weakest?_shorter ‹_›).1
  · exact (weakest?_shorter ‹_›).2

private theorem tree_split (first : Expr) (weakest : Weakest before link after) :
    tree first (before ++ link :: after) = .binary link.op (tree first before) (tree link.operand after) := by
  have looser : ∀ other ∈ after, ∀ top ∈ [Waiting.mk (tree first before) link.op link.precedence],
      top.precedence < other.precedence := by
    intro other member top waits
    cases List.mem_singleton.mp waits
    exact weakest.last other member
  calc tree first (before ++ link :: after)
    _ = build [⟨tree first before, link.op, link.precedence⟩] link.operand after :=
      build_weaker (List.forall_mem_nil _) weakest.least
    _ = finish [⟨tree first before, link.op, link.precedence⟩] (tree link.operand after) :=
      build_append [] looser
    _ = .binary link.op (tree first before) (tree link.operand after) := rfl

private theorem tree_eq_grouped (first : Expr) (links : List Link) : tree first links = grouped first links := by
  rw [grouped.eq_def]
  split
  · next none =>
    cases weakest?_eq_none none
    rfl
  · next before link after found =>
    obtain ⟨shorter, shorter'⟩ := weakest?_shorter found
    obtain ⟨same, weakest⟩ := weakest?_sound found
    rw [same, tree_split first weakest, tree_eq_grouped first before, tree_eq_grouped link.operand after]
termination_by links.length

end Chain

namespace Expr

open Reading Grammar

/-- The tokens are operands with binary operators between them, and then `rest`, where no operator follows. Each operand
is what the rule for operands takes off the front at its first token. -/
inductive Spans (table : PrecedenceTable) (budget : Nat) : List Token → Expr → List Link → List Token → Prop where
  | last {value : Expr} {rest : List Token} (run : List Token)
      (read : (operand table budget (run ++ rest)).result = .ok (value, rest)) (stops : Stops rest) :
      Spans table budget (run ++ rest) value [] rest
  | link {first next : Expr} {op : Char} {precedence : Int} {links : List Link} {token : Token}
      {after rest : List Token} (run : List Token)
      (read : (operand table budget (run ++ token :: after)).result = .ok (first, token :: after))
      (symbol : token.operatorSymbol? = some op) (known : table.get? op = some precedence)
      (others : Spans table budget after next links rest) :
      Spans table budget (run ++ token :: after) first (⟨op, precedence, next⟩ :: links) rest

variable {table : PrecedenceTable} {budget : Nat} {tokens rest : List Token} {first : Expr} {links : List Link}

theorem Spans.parts (spans : Spans table budget tokens first links rest)
    (nonnegative : ∀ op precedence, table.get? op = some precedence → 0 ≤ precedence) :
    parts table (operand table budget) tokens = .ok ((first, links), rest) := by
  induction spans with
  | last run read stops => simp [Expr.parts, read, linksResult_stops stops]
  | link run read symbol known others ih =>
    rw [Expr.parts, read, Result.andThen_ok, linksResult_link symbol known (nonnegative _ _ known), ih]
    rfl

/-- Operands joined by binary operators are read as one expression, whose root is the last of the operators with the
least precedence, and so on in both its parts. -/
theorem expression_eq_grouped (nonnegative : ∀ op precedence, table.get? op = some precedence → 0 ≤ precedence)
    (spans : Spans table budget tokens first links rest) :
    (expression table (budget + 1) tokens).result = .ok (Chain.grouped first links, rest) := by
  rw [expression, result_chain, spans.parts nonnegative, ← Chain.tree_eq_grouped]
  rfl

/-- `a - b * c - d < e;` -/
def mixedChain : List Token :=
  [.ident "a", .operator '-', .ident "b", .operator '*', .ident "c", .operator '-', .ident "d", .operator '<',
    .ident "e", .mark .semicolon]

theorem expression_eq_grouped_mixed : (parse .standard mixedChain).result =
    .ok (.binary '<' (.binary '-' (.binary '-' (.var "a") (.binary '*' (.var "b") (.var "c"))) (.var "d")) (.var "e"),
      [.mark .semicolon]) := by
  have nonnegative : ∀ op precedence, PrecedenceTable.standard.get? op = some precedence → 0 ≤ precedence := by
    intro op precedence found
    have range := PrecedenceTable.settled_standard.range op precedence found
    omega
  have spans : Spans .standard 127 mixedChain (.var "a")
      [⟨'-', 20, .var "b"⟩, ⟨'*', 40, .var "c"⟩, ⟨'-', 20, .var "d"⟩, ⟨'<', 10, .var "e"⟩] [.mark .semicolon] := by
    refine .link [.ident "a"] rfl rfl rfl ?_
    refine .link [.ident "b"] rfl rfl rfl ?_
    refine .link [.ident "c"] rfl rfl rfl ?_
    refine .link [.ident "d"] rfl rfl rfl ?_
    exact .last [.ident "e"] rfl (stops_cons rfl)
  have read := expression_eq_grouped nonnegative spans
  rw [← Chain.tree_eq_grouped] at read
  exact read

end Expr

end Kaleidoscope
