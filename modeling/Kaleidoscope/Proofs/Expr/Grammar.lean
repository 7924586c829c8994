import Kaleidoscope.Expr.Parse
import Kaleidoscope.Proofs.Expr.Chain

/-!
The grammar of expressions, said without reading them: which tokens form an expression, what it stands for and how deep
it nests. An operand is open if it ends in the tail of a condition, a loop or bindings; such a tail goes on as far as it
can, so only the last operand of a chain may be open.
-/

namespace Kaleidoscope.Grammar

/-- A part of a sentence with what it stands for. -/
inductive Phrase where
  | expression (value : Expr)
  /-- An operand, and the operators and operands after it. -/
  | chain (first : Expr) (links : List Link)
  | operand (isOpen : Bool) (value : Expr)
  /-- An operand without prefix operators. -/
  | primary (isOpen : Bool) (value : Expr)
  /-- At least one argument. -/
  | arguments (values : List Expr)
  /-- At least one binding. -/
  | bindings (bound : List (String × Expr))

/-- Whether a phrase goes on as far as it can. -/
def Phrase.isOpen : Phrase → Bool
  | expression _ => true
  | chain _ _ => true
  | operand isOpen _ => isOpen
  | primary isOpen _ => isOpen
  | arguments _ => false
  | bindings _ => false

/-- The tokens form the phrase, with this depth of nesting. Each expression, operand and prefix operator is one level,
and an empty list of arguments is as deep as a single argument. -/
inductive Derives (table : PrecedenceTable) : Phrase → Nat → List Token → Prop where
  | expression {first : Expr} {links : List Link} {n : Nat} {tokens : List Token}
      (inner : Derives table (.chain first links) n tokens) :
      Derives table (.expression (Chain.tree first links)) (n + 1) tokens
  | last {isOpen : Bool} {value : Expr} {n : Nat} {tokens : List Token}
      (inner : Derives table (.operand isOpen value) n tokens) : Derives table (.chain value []) n tokens
  | link {first next : Expr} {links : List Link} {op : Char} {precedence : Int} {token : Token} {m n : Nat}
      {left right : List Token} (head : Derives table (.operand false first) m left)
      (symbol : token.operatorSymbol? = some op) (known : table.get? op = some precedence)
      (nonnegative : 0 ≤ precedence) (tail : Derives table (.chain next links) n right) :
      Derives table (.chain first (⟨op, precedence, next⟩ :: links)) (max m n) (left ++ token :: right)
  | unary {isOpen : Bool} {value : Expr} {n : Nat} {tokens : List Token} (symbol : Char)
      (inner : Derives table (.operand isOpen value) n tokens) :
      Derives table (.operand isOpen (.unary symbol value)) (n + 1) (.other symbol :: tokens)
  | primary {isOpen : Bool} {value : Expr} {n : Nat} {tokens : List Token}
      (inner : Derives table (.primary isOpen value) n tokens) : Derives table (.operand isOpen value) (n + 1) tokens
  | number (value : Double) : Derives table (.primary false (.number value)) 0 [.number value]
  | var (name : String) : Derives table (.primary false (.var name)) 0 [.ident name]
  | callNone (callee : String) : Derives table (.primary false (.call callee [])) 2
      [.ident callee, .mark .openParen, .mark .closeParen]
  | call (callee : String) {args : List Expr} {n : Nat} {tokens : List Token}
      (inner : Derives table (.arguments args) n tokens) :
      Derives table (.primary false (.call callee args)) n
        (.ident callee :: .mark .openParen :: (tokens ++ [.mark .closeParen]))
  | bracketed {value : Expr} {n : Nat} {tokens : List Token} (inner : Derives table (.expression value) n tokens) :
      Derives table (.primary false value) n (.mark .openParen :: (tokens ++ [.mark .closeParen]))
  | cond {test yes no : Expr} {l m n : Nat} {first second third : List Token}
      (tested : Derives table (.expression test) l first) (taken : Derives table (.expression yes) m second)
      (otherwise : Derives table (.expression no) n third) :
      Derives table (.primary true (.cond test yes no)) (max l (max m n))
        (.keyword .condition :: (first ++ .keyword .consequent :: (second ++ .keyword .alternative :: third)))
  | loop (name : String) {start stop body : Expr} {l m n : Nat} {first second third : List Token}
      (begun : Derives table (.expression start) l first) (ended : Derives table (.expression stop) m second)
      (inner : Derives table (.expression body) n third) :
      Derives table (.primary true (.loop name start stop none body)) (max l (max m n))
        (.keyword .loop :: .ident name :: .operator '=' ::
          (first ++ .mark .comma :: (second ++ .keyword .within :: third)))
  | stepLoop (name : String) {start stop step body : Expr} {k l m n : Nat} {first second third fourth : List Token}
      (begun : Derives table (.expression start) k first) (ended : Derives table (.expression stop) l second)
      (stepped : Derives table (.expression step) m third) (inner : Derives table (.expression body) n fourth) :
      Derives table (.primary true (.loop name start stop (some step) body)) (max k (max l (max m n)))
        (.keyword .loop :: .ident name :: .operator '=' ::
          (first ++ .mark .comma :: (second ++ .mark .comma :: (third ++ .keyword .within :: fourth))))
  | bind {bound : List (String × Expr)} {body : Expr} {m n : Nat} {first second : List Token}
      (outer : Derives table (.bindings bound) m first) (inner : Derives table (.expression body) n second) :
      Derives table (.primary true (.bind bound body)) (max m n)
        (.keyword .variable :: (first ++ .keyword .within :: second))
  | oneArgument {value : Expr} {n : Nat} {tokens : List Token} (inner : Derives table (.expression value) n tokens) :
      Derives table (.arguments [value]) n tokens
  | moreArguments {value : Expr} {values : List Expr} {m n : Nat} {first second : List Token}
      (head : Derives table (.expression value) m first) (tail : Derives table (.arguments values) n second) :
      Derives table (.arguments (value :: values)) (max m n) (first ++ .mark .comma :: second)
  | oneBinding (name : String) {value : Expr} {n : Nat} {tokens : List Token}
      (inner : Derives table (.expression value) n tokens) :
      Derives table (.bindings [(name, value)]) n (.ident name :: .operator '=' :: tokens)
  | moreBindings (name : String) {value : Expr} {bound : List (String × Expr)} {m n : Nat} {first second : List Token}
      (head : Derives table (.expression value) m first) (tail : Derives table (.bindings bound) n second) :
      Derives table (.bindings ((name, value) :: bound)) (max m n)
        (.ident name :: .operator '=' :: (first ++ .mark .comma :: second))

/-- No operator stands at the front, so nothing goes on there. -/
def Stops (rest : List Token) : Prop := ∀ token ∈ rest.head?, token.operatorSymbol? = none

/-- An identifier that ends what is used is not followed by arguments. -/
def Apart (used rest : List Token) : Prop :=
  ∀ name, used.getLast? = some (.ident name) → rest.head? ≠ some (.mark .openParen)

variable {table : PrecedenceTable} {used rest : List Token}

theorem stops_cons {token : Token} (symbol : token.operatorSymbol? = none) : Stops (token :: rest) := by
  intro first member
  cases member
  exact symbol

theorem Stops.no_symbol {token : Token} (stops : Stops (token :: rest)) : token.operatorSymbol? = none :=
  stops token rfl

theorem apart_of_head {token : Token} (other : token ≠ .mark .openParen) : Apart used (token :: rest) := by
  intro name _ same
  cases same
  contradiction

theorem apart_append (front : List Token) {token : Token} (noName : ∀ name, token ≠ .ident name)
    (apart : Apart used rest) : Apart (front ++ token :: used) rest := by
  intro name last
  rw [List.getLast?_append] at last
  cases used with
  | nil => exact absurd (Option.some.inj last) (noName name)
  | cons first used => exact apart name (by simpa using last)

theorem apart_closed (front : List Token) : Apart (front ++ [.mark .closeParen]) rest :=
  apart_append front (fun _ => Token.noConfusion) fun _ last => by contradiction

theorem Apart.of_append (front : List Token) {token : Token} (apart : Apart (front ++ token :: used) rest) :
    Apart used rest := by
  intro name last
  apply apart name
  rw [List.getLast?_append, List.getLast?_cons, last]
  simp

namespace Derives

variable {n : Nat} {value : Expr} {isOpen : Bool}

/-! Which token a phrase begins with. -/

theorem primary_head (derives : Derives table (.primary isOpen value) n used) :
    ∃ token tail, used = token :: tail ∧ Token.startsExpression [token] = true ∧ ∀ symbol, token ≠ .other symbol := by
  cases derives <;> exact ⟨_, _, rfl, rfl, fun _ => Token.noConfusion⟩

theorem operand_head (derives : Derives table (.operand isOpen value) n used) :
    ∃ token tail, used = token :: tail ∧ Token.startsExpression [token] = true := by
  cases derives with
  | unary symbol inner => exact ⟨_, _, rfl, rfl⟩
  | primary inner =>
    obtain ⟨token, tail, same, starts, _⟩ := inner.primary_head
    exact ⟨token, tail, same, starts⟩

private theorem chain_head {first : Expr} {links : List Link} (derives : Derives table (.chain first links) n used) :
    ∃ token tail, used = token :: tail ∧ Token.startsExpression [token] = true := by
  cases derives with
  | last inner => exact inner.operand_head
  | link head symbol known nonnegative tail =>
    obtain ⟨token, tail, rfl, starts⟩ := head.operand_head
    exact ⟨token, _, rfl, starts⟩

private theorem expression_head (derives : Derives table (.expression value) n used) :
    ∃ token tail, used = token :: tail ∧ Token.startsExpression [token] = true := by
  cases derives with
  | expression inner => exact inner.chain_head

private theorem startsExpression_append (derives : Derives table (.expression value) n used) (rest : List Token) :
    Token.startsExpression (used ++ rest) = true := by
  obtain ⟨token, tail, rfl, starts⟩ := derives.expression_head
  unfold Token.startsExpression at starts ⊢
  split at starts <;> simp_all

theorem startsExpression_arguments {args : List Expr} (derives : Derives table (.arguments args) n used)
    (rest : List Token) : Token.startsExpression (used ++ rest) = true := by
  cases derives with
  | oneArgument inner => exact inner.startsExpression_append rest
  | moreArguments head tail =>
    rw [List.append_assoc]
    exact head.startsExpression_append _

/-- No token inside an expression begins or separates forms, and none is a comment. -/
theorem inside {phrase : Phrase} (derives : Derives table phrase n used) :
    ∀ token ∈ used, token.isBoundary = false ∧ token.isComment = false := by
  induction derives with
  | expression _ ih => exact ih
  | last _ ih => exact ih
  | @link _ _ _ _ _ token _ _ _ _ _ symbol _ _ _ ihHead ihTail =>
    have plain : token.isBoundary = false ∧ token.isComment = false := by
      cases token <;> simp_all [Token.operatorSymbol?, Token.isBoundary, Token.isComment]
    exact List.forall_mem_append.mpr ⟨ihHead, List.forall_mem_cons.mpr ⟨plain, ihTail⟩⟩
  | primary _ ih => exact ih
  | oneArgument _ ih => exact ih
  | _ => simp_all [or_imp, Token.isBoundary, Token.isComment]

end Derives

end Kaleidoscope.Grammar
