import Kaleidoscope.Expr.Basic
import Kaleidoscope.PrecedenceTable
import Kaleidoscope.Reading

/-!
Reading expressions from tokens. Nesting is bounded by a budget, which each expression and each operand
lowers by one.
-/

namespace Kaleidoscope

namespace Expr

open Token (expect identifier unexpected startsExpression)

/-- A rule for expressions one level further in. -/
abbrev Rule : Type := (tokens : List Token) → Reading Expr tokens

/-- The binary operator that comes next, with its precedence. One without a precedence is an error. -/
def nextOperator (table : PrecedenceTable) (tokens : List Token) : Except SyntaxError (Option (Char × Int)) :=
  match tokens.head?.bind Token.operatorSymbol? with
  | none => .ok none
  | some op =>
    match table.get? op with
    | none => .error (.unknownBinaryOperator op)
    | some precedence => .ok (some (op, precedence))

/-- Joins operators and their operands to `lhs` as long as the operators bind at least as tightly as `threshold`. An
operand with an operator behind it that binds more tightly than the one before it goes to that operator first. -/
def climb (table : PrecedenceTable) (operand : Rule) (threshold : Int) (lhs : Expr) (tokens : List Token) :
    Except SyntaxError (Expr × { rest : List Token // rest.length ≤ tokens.length }) :=
  match tokens with
  | [] => .ok (lhs, ⟨[], Nat.le_refl _⟩)
  | token :: rest =>
    match nextOperator table (token :: rest) with
    | .error reason => .error reason
    | .ok none => .ok (lhs, ⟨token :: rest, Nat.le_refl _⟩)
    | .ok (some (op, precedence)) =>
      if precedence < threshold then
        .ok (lhs, ⟨token :: rest, Nat.le_refl _⟩)
      else
        match operand rest with
        | .error reason => .error reason
        | .ok (rhs, ⟨after, shorter⟩) =>
          match nextOperator table after with
          | .error reason => .error reason
          | .ok next =>
            let folded : Except SyntaxError (Expr × { rest : List Token // rest.length ≤ after.length }) :=
              if next.any (precedence < ·.2) then
                climb table operand (precedence + 1) rhs after
              else
                .ok (rhs, ⟨after, Nat.le_refl _⟩)
            match folded with
            | .error reason => .error reason
            | .ok (rhs, ⟨left, fewer⟩) =>
              match climb table operand threshold (.binary op lhs rhs) left with
              | .error reason => .error reason
              | .ok (whole, ⟨last, fewest⟩) =>
                .ok (whole, ⟨last, Nat.le_trans fewest (Nat.le_trans fewer (Nat.le_succ_of_le (Nat.le_of_lt shorter)))⟩)
termination_by tokens.length
decreasing_by
  · exact Nat.lt_succ_of_lt shorter
  · exact Nat.lt_of_le_of_lt fewer (Nat.lt_succ_of_lt shorter)

/-- An operand and everything joined to it by binary operators. -/
def chain (table : PrecedenceTable) (operand : Rule) (tokens : List Token) : Reading Expr tokens :=
  match operand tokens with
  | .error reason => .error reason
  | .ok (first, ⟨rest, shorter⟩) =>
    match climb table operand 0 first rest with
    | .error reason => .error reason
    | .ok (whole, ⟨left, fewer⟩) => .ok (whole, ⟨left, Nat.lt_of_le_of_lt fewer shorter⟩)

/-- The arguments of a call after the first one, and the bracket that closes them. -/
def moreArguments (expr : Rule) (tokens : List Token) : Reading (List Expr) tokens :=
  match tokens with
  | .mark .comma :: rest =>
    match expr rest with
    | .error reason => .error reason
    | .ok (arg, ⟨after, shorter⟩) =>
      (((moreArguments expr after).mapping (arg :: ·)).under shorter).skipping _
  | tokens => (expect (.mark .closeParen) [.token (.mark .comma)] tokens).returning []
termination_by tokens.length
decreasing_by exact Nat.lt_succ_of_lt shorter

/-- The arguments of a call after the opening bracket. Without any, there must be room for one. -/
def arguments (expr : Rule) (room : Bool) (tokens : List Token) : Reading (List Expr) tokens :=
  if startsExpression tokens then
    (expr tokens).andThen fun arg rest => (moreArguments expr rest).mapping (arg :: ·)
  else if room then
    (expect (.mark .closeParen) [] tokens).returning []
  else
    .error .nestingTooDeep

def binding (expr : Rule) (tokens : List Token) : Reading (String × Expr) tokens :=
  (identifier tokens).andThen fun name rest =>
    (expect (.operator '=') [] rest).andThen fun _ rest =>
      (expr rest).mapping fun init => (name, init)

/-- What follows a binding: `true` for a comma, `false` for the keyword that ends the list. -/
def bindingsContinue : (tokens : List Token) → Reading Bool tokens
  | .mark .comma :: rest => .one _ rest true
  | tokens => (expect (.keyword .within) [.token (.mark .comma)] tokens).returning false

/-- Bindings up to and with the keyword that ends them. -/
def bindings (expr : Rule) (tokens : List Token) : Reading (List (String × Expr)) tokens :=
  match binding expr tokens with
  | .error reason => .error reason
  | .ok (first, ⟨rest, shorter⟩) =>
    match bindingsContinue rest with
    | .error reason => .error reason
    | .ok (false, after) => Reading.under shorter (.ok ([first], after))
    | .ok (true, ⟨after, less⟩) =>
      (((bindings expr after).mapping (first :: ·)).under less).under shorter
termination_by tokens.length
decreasing_by exact Nat.lt_trans less shorter

/-- The bracketed expression after the opening bracket. -/
def bracketed (expr : Rule) (tokens : List Token) : Reading Expr tokens :=
  (expr tokens).andThen fun inner rest => (expect (.mark .closeParen) [] rest).returning inner

def condTail (expr : Rule) (tokens : List Token) : Reading Expr tokens :=
  (expr tokens).andThen fun test rest =>
    (expect (.keyword .consequent) [] rest).andThen fun _ rest =>
      (expr rest).andThen fun yes rest =>
        (expect (.keyword .alternative) [] rest).andThen fun _ rest =>
          (expr rest).mapping fun no => .cond test yes no

/-- The rest of a loop after its end test: an optional step, then the body. -/
def loopTail (expr : Rule) : (tokens : List Token) → Reading (Option Expr × Expr) tokens
  | .mark .comma :: rest =>
    Reading.skipping _ <| (expr rest).andThen fun step rest =>
      (expect (.keyword .within) [] rest).andThen fun _ rest =>
        (expr rest).mapping fun body => (some step, body)
  | tokens =>
    (expect (.keyword .within) [.token (.mark .comma)] tokens).andThen fun _ rest =>
      (expr rest).mapping fun body => (none, body)

def loopHead (expr : Rule) (tokens : List Token) : Reading Expr tokens :=
  (binding expr tokens).andThen fun (name, start) rest =>
    (expect (.mark .comma) [] rest).andThen fun _ rest =>
      (expr rest).andThen fun stop rest =>
        (loopTail expr rest).mapping fun (step, body) => .loop name start stop step body

def bindTail (expr : Rule) (tokens : List Token) : Reading Expr tokens :=
  (bindings expr tokens).andThen fun bound rest => (expr rest).mapping fun body => .bind bound body

/-- An operand that is no prefix operator. -/
def primary (expr : Rule) (room : Bool) : Rule
  | .number value :: rest => .one _ rest (.number value)
  | .ident name :: .mark .openParen :: rest =>
    ((arguments expr room rest).mapping (.call name)).skipping _ |>.skipping _
  | .ident name :: rest => .one _ rest (.var name)
  | .mark .openParen :: rest => (bracketed expr rest).skipping _
  | .keyword .condition :: rest => (condTail expr rest).skipping _
  | .keyword .loop :: rest => (loopHead expr rest).skipping _
  | .keyword .variable :: rest => (bindTail expr rest).skipping _
  | tokens => unexpected tokens [.expression]

mutual

/-- An expression with `budget` levels of nesting left. -/
def expression (table : PrecedenceTable) : (budget : Nat) → Rule
  | 0 => fun _ => .error .nestingTooDeep
  | budget + 1 => fun tokens => chain table (operand table budget) tokens

/-- An operand: prefix operators, then a primary. -/
def operand (table : PrecedenceTable) : (budget : Nat) → Rule
  | 0 => fun _ => .error .nestingTooDeep
  | budget + 1 => fun tokens =>
    match tokens with
    | .other symbol :: rest => ((operand table budget rest).mapping (.unary symbol)).skipping _
    | tokens => primary (expression table budget) (2 ≤ budget) tokens

end

/-- Reads one expression under these precedences. -/
def parse (table : PrecedenceTable) : Rule := expression table maxNesting

end Expr

end Kaleidoscope
