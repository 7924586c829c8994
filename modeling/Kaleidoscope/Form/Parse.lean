import Kaleidoscope.Expr.Parse
import Kaleidoscope.Form.Basic
import Kaleidoscope.Token.Scan

/-!
Reading forms one after another. A binary operator has its precedence from its head on, its own body
included. After a form that cannot be read, reading goes on at the next boundary.
-/

namespace Kaleidoscope

namespace Prototype

/-- A head as written, before its precedence and its number of parameters are checked. -/
structure Draft where
  name : String
  kind : PrototypeKind
  precedence : Option Double
  params : List String

/-- The precedence to use: a whole number from 1 to 100, or the default if none is stated. -/
def Draft.checkPrecedence (draft : Draft) : Except SyntaxError Int :=
  match draft.precedence with
  | none => .ok defaultPrecedence
  | some value =>
    match value.toNat? with
    | none => .error (.invalidPrecedence value)
    | some n => if 1 ≤ n ∧ n ≤ 100 then .ok n else .error (.invalidPrecedence value)

def Draft.check (draft : Draft) : Except SyntaxError Prototype :=
  match draft.checkPrecedence with
  | .error reason => .error reason
  | .ok precedence =>
    match draft.kind.operands? with
    | none => .ok ⟨draft.name, draft.params, draft.kind, precedence⟩
    | some expected =>
      if draft.params.length = expected then
        .ok ⟨draft.name, draft.params, draft.kind, precedence⟩
      else
        .error (.operandCount draft.name expected draft.params.length)

open Token (expect unexpected)

/-- Parameter names up to and with the closing bracket. -/
def paramNames : (tokens : List Token) → Reading (List String) tokens
  | .ident name :: rest => ((paramNames rest).mapping (name :: ·)).skipping _
  | tokens => (expect (.mark .closeParen) [.identifier] tokens).returning []

def paramList (tokens : List Token) : Reading (List String) tokens :=
  (expect (.mark .openParen) [] tokens).andThen fun _ rest => paramNames rest

def symbol : (tokens : List Token) → Reading Char tokens
  | .operator c :: rest => .one _ rest c
  | .other c :: rest => .one _ rest c
  | tokens => unexpected tokens [.operatorSymbol]

/-- What follows the symbol of a binary operator: perhaps a precedence, then the parameters. -/
def binaryTail (op : Char) : (tokens : List Token) → Reading Draft tokens
  | .number value :: rest =>
    ((paramList rest).mapping fun names => ⟨binaryName op, .binary, some value, names⟩).skipping _
  | tokens => (paramList tokens).mapping fun names => ⟨binaryName op, .binary, none, names⟩

def draft : (tokens : List Token) → Reading Draft tokens
  | .ident name :: rest =>
    ((paramList rest).mapping fun names => ⟨name, .function, none, names⟩).skipping _
  | .keyword .unary :: rest =>
    ((symbol rest).andThen fun op rest =>
      (paramList rest).mapping fun names => ⟨unaryName op, .unary, none, names⟩).skipping _
  | .keyword .binary :: rest => ((symbol rest).andThen binaryTail).skipping _
  | tokens => unexpected tokens [.functionName]

/-- Reads a head and checks it once it is complete. -/
def parse (tokens : List Token) : Reading Prototype tokens :=
  match draft tokens with
  | .error reason => .error reason
  | .ok (written, rest) =>
    match written.check with
    | .error reason => .error reason
    | .ok proto => .ok (proto, rest)

/-- Gives a binary operator its precedence. -/
def declareIn (proto : Prototype) (table : PrecedenceTable) : PrecedenceTable :=
  match proto.binarySymbol? with
  | none => table
  | some op => table.declare op proto.precedence

def commitIn (proto : Prototype) (table : PrecedenceTable) : PrecedenceTable :=
  match proto.binarySymbol? with
  | none => table
  | some op => table.commit op

/-- Takes back what `declareIn` did. -/
def retractIn (proto : Prototype) (table : PrecedenceTable) : PrecedenceTable :=
  match proto.binarySymbol? with
  | none => table
  | some op => table.retract op

end Prototype

namespace Form

/-- The definition after its keyword. Its operator stays declared only if the body can be read. -/
def parseDefinition (table : PrecedenceTable) (tokens : List Token) :
    Reading Form tokens × PrecedenceTable :=
  match Prototype.parse tokens with
  | .error reason => (.error reason, table)
  | .ok (proto, ⟨rest, shorter⟩) =>
    let declared := proto.declareIn table
    let body := Expr.parse declared rest
    let table := match body with
      | .ok _ => declared
      | .error _ => proto.retractIn declared
    ((body.mapping (definition proto)).under shorter, table)

def parseDeclaration (table : PrecedenceTable) (tokens : List Token) :
    Reading Form tokens × PrecedenceTable :=
  match Prototype.parse tokens with
  | .error reason => (.error reason, table)
  | .ok (proto, rest) => (.ok (declaration proto, rest), proto.declareIn table)

/-- Reads the form that starts with the first token. -/
def parse (table : PrecedenceTable) : (tokens : List Token) → Reading Form tokens × PrecedenceTable
  | .keyword .definition :: rest =>
    let (reading, table) := parseDefinition table rest
    (reading.skipping _, table)
  | .keyword .external :: rest =>
    let (reading, table) := parseDeclaration table rest
    (reading.skipping _, table)
  | tokens => ((Expr.parse table tokens).mapping (definition .anonymous), table)

/-- A form, or why it could not be read, the precedences after it and the tokens left. -/
structure Item where
  form : Except SyntaxError Form
  table : PrecedenceTable
  rest : List Token

/-- The next form after any semicolons. A form that fails gives up its tokens up to the next boundary. -/
def next? (table : PrecedenceTable) (tokens : List Token) : Option Item :=
  match tokens.dropWhile (· = .mark .semicolon) with
  | [] => none
  | first :: more =>
    match parse table (first :: more) with
    | (.ok (form, ⟨rest, _⟩), table) => some ⟨.ok form, table, rest⟩
    | (.error reason, table) => some ⟨.error reason, table, more.dropWhile (!·.isBoundary)⟩

theorem next?_shorter {table : PrecedenceTable} {tokens : List Token} {item : Item}
    (found : next? table tokens = some item) : item.rest.length < tokens.length := by
  unfold next? at found
  have dropped := Token.length_dropWhile_le (· = .mark .semicolon) tokens
  split at found
  · contradiction
  · next first more same =>
    rw [same] at dropped
    split at found
    · next form rest shorter table read =>
      cases found
      exact Nat.lt_of_lt_of_le shorter dropped
    · next reason table read =>
      cases found
      have skipped := Token.length_dropWhile_le (!·.isBoundary) more
      simp only [List.length_cons] at dropped
      simp only
      omega

/-- Hands every form to `handle` in turn, which may change the precedences before the next one is read. -/
def fold {σ : Type} (handle : σ → PrecedenceTable → Except SyntaxError Form → σ × PrecedenceTable)
    (state : σ) (table : PrecedenceTable) (tokens : List Token) : σ × PrecedenceTable :=
  match _found : next? table tokens with
  | none => (state, table)
  | some item =>
    let (state, table) := handle state item.table item.form
    fold handle state table item.rest
termination_by tokens.length
decreasing_by exact next?_shorter ‹_›

/-- Every form of a source with the precedences after it, when nothing settles them. -/
def readAll (table : PrecedenceTable) (source : String) :
    List (Except SyntaxError Form × PrecedenceTable) :=
  let step read table form := ((form, table) :: read, table)
  (fold step [] table (Token.significant source)).1.reverse

end Form

end Kaleidoscope
