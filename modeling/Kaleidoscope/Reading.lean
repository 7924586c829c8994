import Kaleidoscope.SyntaxError

/-!
Readings: what a rule takes from the front of a list of tokens. A reading that succeeds leaves fewer tokens than
there were, so rules can be repeated without a bound.
-/

namespace Kaleidoscope

/-- A value read from the front of `tokens` and the tokens after it. -/
abbrev Reading (α : Type) (tokens : List Token) : Type :=
  Except SyntaxError (α × { rest : List Token // rest.length < tokens.length })

namespace Reading

variable {α β : Type} {tokens : List Token}

/-- The same reading, of a longer list. -/
def under {rest : List Token} (shorter : rest.length < tokens.length) (reading : Reading α rest) :
    Reading α tokens :=
  match reading with
  | .error reason => .error reason
  | .ok (value, ⟨left, less⟩) => .ok (value, ⟨left, Nat.lt_trans less shorter⟩)

/-- Reads with `first`, then with `next` what `first` left. -/
def andThen (first : Reading α tokens) (next : α → (rest : List Token) → Reading β rest) :
    Reading β tokens :=
  match first with
  | .error reason => .error reason
  | .ok (value, ⟨rest, shorter⟩) => (next value rest).under shorter

/-- One token read. -/
def one (token : Token) (rest : List Token) (value : α) : Reading α (token :: rest) :=
  .ok (value, ⟨rest, Nat.lt_succ_self _⟩)

/-- The same reading, after one more token. -/
def skipping (token : Token) (reading : Reading α tokens) : Reading α (token :: tokens) :=
  reading.under (Nat.lt_succ_self _)

def returning (value : β) (reading : Reading α tokens) : Reading β tokens :=
  reading.map fun result => (value, result.2)

def mapping (f : α → β) (reading : Reading α tokens) : Reading β tokens :=
  reading.map fun result => (f result.1, result.2)

end Reading

namespace Token

def unexpected {α : Type} (tokens : List Token) (expected : List Expectation) : Reading α tokens :=
  .error (.unexpected tokens.head? expected)

/-- Reads one given token; `others` could have stood there as well. -/
def expect (token : Token) (others : List Expectation) (tokens : List Token) : Reading Unit tokens :=
  match tokens with
  | [] => unexpected [] (others ++ [.token token])
  | found :: rest =>
    if found = token then
      .one found rest ()
    else
      unexpected (found :: rest) (others ++ [.token token])

def identifier : (tokens : List Token) → Reading String tokens
  | ident name :: rest => .one _ rest name
  | tokens => unexpected tokens [.identifier]

/-- Whether an expression can start here. -/
def startsExpression : List Token → Bool
  | number _ :: _ => true
  | ident _ :: _ => true
  | other _ :: _ => true
  | mark .openParen :: _ => true
  | keyword .condition :: _ => true
  | keyword .loop :: _ => true
  | keyword .variable :: _ => true
  | _ => false

end Token

end Kaleidoscope
