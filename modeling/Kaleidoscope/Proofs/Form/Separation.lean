import Kaleidoscope.Form.Parse
import Kaleidoscope.Proofs.Expr.Separation
import Kaleidoscope.Proofs.Token.Scan

/-!
Forms end at boundaries. The forms before a boundary are read as if the input ended there, and only the last of them can
be left unfinished.
-/

namespace Kaleidoscope

open Reading Reading.Result

variable {stop : Token} {more : List Token}

namespace Prototype

open Token (separates_expect boundary_cases)
open Kaleidoscope.Expr (boundary_ne_mark)

section

variable (boundary : stop.isBoundary = true)

include boundary

private theorem separates_paramNames : Separates stop more fun tokens => (paramNames tokens).result := by
  have ends : Separates stop more fun tokens =>
      (Token.expect (.mark .closeParen) [.identifier] tokens).result.mapping fun _ => ([] : List String) :=
    (separates_expect _ (boundary_ne_mark boundary (by decide)) _).mapping _
  intro tokens
  induction tokens with
  | nil =>
    have last := ends []
    rcases boundary_cases boundary with rfl | rfl | rfl <;> exact last
  | cons token rest ih =>
    have last := ends (token :: rest)
    cases token with
    | ident name =>
      simp only [List.cons_append, paramNames, result_skipping, result_mapping]
      rw [← before_mapping]
      exact congrArg _ ih
    | _ =>
      simp only [List.cons_append, paramNames, result_returning]
      exact last

private theorem separates_paramList : Separates stop more fun tokens => (paramList tokens).result := by
  simp only [paramList, result_andThen]
  refine (separates_expect _ (boundary_ne_mark boundary (by decide)) _).andThen fun _ => ?_
  exact separates_paramNames boundary

private theorem separates_symbol : Separates stop more fun tokens => (symbol tokens).result := by
  intro tokens
  cases tokens with
  | nil => rcases boundary_cases boundary with rfl | rfl | rfl <;> rfl
  | cons token rest => cases token <;> rfl

private theorem separates_binaryTail (op : Char) : Separates stop more fun tokens => (binaryTail op tokens).result := by
  have params : ∀ f : List String → Draft, Separates stop more fun tokens => (paramList tokens).result.mapping f :=
    fun f => (separates_paramList boundary).mapping f
  intro tokens
  cases tokens with
  | nil =>
    have last := params (fun names => ⟨binaryName op, .binary, none, names⟩) []
    rcases boundary_cases boundary with rfl | rfl | rfl <;> exact last
  | cons token rest =>
    cases token with
    | number value =>
      simp only [List.cons_append, binaryTail, result_skipping, result_mapping]
      exact params _ rest
    | _ =>
      simp only [List.cons_append, binaryTail, result_mapping]
      exact params _ (_ :: rest)

private theorem separates_draft : Separates stop more fun tokens => (draft tokens).result := by
  intro tokens
  cases tokens with
  | nil => rcases boundary_cases boundary with rfl | rfl | rfl <;> rfl
  | cons token rest =>
    cases token with
    | ident name =>
      simp only [List.cons_append, draft, result_skipping, result_mapping]
      exact (separates_paramList boundary).mapping _ rest
    | keyword word =>
      cases word with
      | unary =>
        simp only [List.cons_append, draft, result_skipping, result_andThen, result_mapping]
        exact (separates_symbol boundary).andThen (fun op => (separates_paramList boundary).mapping _) rest
      | binary =>
        simp only [List.cons_append, draft, result_skipping, result_andThen]
        exact (separates_symbol boundary).andThen (fun op => separates_binaryTail boundary op) rest
      | _ => rfl
    | _ => rfl

end

theorem result_parse (tokens : List Token) :
    (parse tokens).result = (draft tokens).result.andThen fun written rest =>
      match written.check with
      | .error reason => .error reason
      | .ok proto => .ok (proto, rest) := by
  unfold parse
  cases draft tokens with
  | error reason => rfl
  | ok read =>
    obtain ⟨written, rest⟩ := read
    simp only [result_ok, andThen_ok]
    cases written.check <;> rfl

/-- A head that is complete is not refused for what follows it. -/
theorem Draft.meeting_check {draft : Draft} {reason : SyntaxError} (refused : draft.check = .error reason)
    (stop : Token) : reason.meeting stop = reason := by
  unfold check checkPrecedence at refused
  grind [SyntaxError.meeting]

theorem separates_parse (boundary : stop.isBoundary = true) :
    Separates stop more fun tokens => (parse tokens).result := by
  simp only [result_parse]
  refine (separates_draft boundary).andThen fun written rest => ?_
  cases checked : written.check with
  | error reason =>
    dsimp only [before]
    rw [Draft.meeting_check checked]
  | ok proto => rfl

end Prototype

namespace Form

/-- What reading a form gives, without the proof that it has made progress. -/
def result {tokens : List Token} (read : Reading Form tokens × PrecedenceTable) : Result Form × PrecedenceTable :=
  (read.1.result, read.2)

variable {table : PrecedenceTable} {tokens : List Token}

/-- The body of a definition, and the precedences once it has been read. -/
def bodyResult (table : PrecedenceTable) (proto : Prototype) (tokens : List Token) : Result Form × PrecedenceTable :=
  match (Expr.parse (proto.declareIn table) tokens).result with
  | .error reason => (.error reason, proto.retractIn (proto.declareIn table))
  | .ok (body, rest) => (.ok (definition proto body, rest), proto.declareIn table)

theorem result_parseDefinition (table : PrecedenceTable) (tokens : List Token) :
    result (parseDefinition table tokens) =
      match (Prototype.parse tokens).result with
      | .error reason => (.error reason, table)
      | .ok (proto, rest) => bodyResult table proto rest := by
  unfold parseDefinition result bodyResult
  cases Prototype.parse tokens with
  | error reason => rfl
  | ok head =>
    obtain ⟨proto, rest, shorter⟩ := head
    simp only [result_ok, result_under, result_mapping]
    cases Expr.parse (proto.declareIn table) rest <;> rfl

theorem result_parseDeclaration (table : PrecedenceTable) (tokens : List Token) :
    result (parseDeclaration table tokens) =
      match (Prototype.parse tokens).result with
      | .error reason => (.error reason, table)
      | .ok (proto, rest) => (.ok (declaration proto, rest), proto.declareIn table) := by
  unfold parseDeclaration result
  cases Prototype.parse tokens with
  | error reason => rfl
  | ok head => rfl

theorem result_parse_definition (table : PrecedenceTable) (rest : List Token) :
    result (parse table (.keyword .definition :: rest)) = result (parseDefinition table rest) := by
  simp [parse, result]

theorem result_parse_declaration (table : PrecedenceTable) (rest : List Token) :
    result (parse table (.keyword .external :: rest)) = result (parseDeclaration table rest) := by
  simp [parse, result]

theorem result_parse_expression {first : Token} (noDefinition : first ≠ .keyword .definition)
    (noDeclaration : first ≠ .keyword .external) (table : PrecedenceTable) (rest : List Token) :
    result (parse table (first :: rest)) =
      ((Expr.parse table (first :: rest)).result.mapping (definition .anonymous), table) := by
  cases first with
  | keyword word =>
    cases word with
    | definition => contradiction
    | external => contradiction
    | _ => simp [parse, result]
  | _ => simp [parse, result]

/-- A form is read on its own before a boundary. -/
theorem result_parse_before (boundary : stop.isBoundary = true) (table : PrecedenceTable) (first : Token)
    (rest : List Token) :
    result (parse table (first :: (rest ++ stop :: more))) =
      ((result (parse table (first :: rest))).1.before stop more, (result (parse table (first :: rest))).2) := by
  have head : (Prototype.parse (rest ++ stop :: more)).result = (Prototype.parse rest).result.before stop more :=
    Prototype.separates_parse boundary rest
  by_cases defines : first = .keyword .definition
  · subst defines
    simp only [result_parse_definition, result_parseDefinition, head]
    rcases (Prototype.parse rest).result with reason | ⟨proto, after⟩
    · rfl
    · have body : (Expr.parse (proto.declareIn table) (after ++ stop :: more)).result =
          (Expr.parse (proto.declareIn table) after).result.before stop more :=
        Expr.separates_parse boundary _ after
      simp only [before, bodyResult, body]
      rcases (Expr.parse (proto.declareIn table) after).result with reason | ⟨value, left⟩ <;> rfl
  · by_cases declares : first = .keyword .external
    · subst declares
      simp only [result_parse_declaration, result_parseDeclaration, head]
      rcases (Prototype.parse rest).result with reason | ⟨proto, after⟩ <;> rfl
    · rw [result_parse_expression defines declares, result_parse_expression defines declares, ← before_mapping]
      exact congrArg (fun read => (Result.mapping _ read, table)) (Expr.separates_parse boundary table (first :: rest))

/-- The same item, of tokens that are followed by `stop` and `more`. -/
def Item.before (stop : Token) (more : List Token) (item : Item) : Item :=
  ⟨item.form.mapError (·.meeting stop), item.table, item.rest ++ stop :: more⟩

private theorem form_before_ne (item : Item) (stop : Token) (more : List Token) (expected : List Expectation) :
    (item.before stop more).form ≠ .error (.unexpected none expected) := by
  obtain ⟨form, table, rest⟩ := item
  intro same
  cases form with
  | ok form => contradiction
  | error reason =>
    have met : reason.meeting stop = .unexpected none expected := Except.error.inj same
    unfold SyntaxError.meeting at met
    split at met
    · cases met
    · next finished => exact finished expected met

/-- The item for a form that begins with `first`. -/
def item (table : PrecedenceTable) (first : Token) (rest : List Token) : Item :=
  match result (parse table (first :: rest)) with
  | (.ok (form, left), table) => ⟨.ok form, table, left⟩
  | (.error reason, table) => ⟨.error reason, table, rest.dropWhile (!·.isBoundary)⟩

theorem form_item (table : PrecedenceTable) (first : Token) (rest : List Token) :
    (item table first rest).form = (result (parse table (first :: rest))).1.map Prod.fst := by
  unfold item
  rcases result (parse table (first :: rest)) with ⟨reason | ⟨form, left⟩, after⟩ <;> rfl

theorem next?_eq (table : PrecedenceTable) (tokens : List Token) :
    next? table tokens =
      match tokens.dropWhile (· = .mark .semicolon) with
      | [] => none
      | first :: rest => some (item table first rest) := by
  unfold next?
  cases tokens.dropWhile (· = .mark .semicolon) with
  | nil => rfl
  | cons first rest =>
    simp only [item, result]
    rcases parse table (first :: rest) with ⟨reason | ⟨form, left⟩, after⟩ <;> rfl

/-- A form that can be read from these tokens under these precedences: its head has been read, unless it has none, and
its body with the operator of the head declared. -/
inductive ReadUnder (table : PrecedenceTable) (tokens : List Token) : Form → Prop where
  | declaration {proto : Prototype} {inner rest : List Token} (part : inner <:+ tokens)
      (head : (Prototype.parse inner).result = .ok (proto, rest)) : ReadUnder table tokens (.declaration proto)
  | definition {proto : Prototype} {body : Expr} {inner middle rest : List Token} (part : inner <:+ tokens)
      (head : (Prototype.parse inner).result = .ok (proto, middle))
      (read : (Expr.parse (proto.declareIn table) middle).result = .ok (body, rest)) :
      ReadUnder table tokens (.definition proto body)
  | bare {body : Expr} {inner rest : List Token} (part : inner <:+ tokens)
      (read : (Expr.parse table inner).result = .ok (body, rest)) :
      ReadUnder table tokens (.definition .anonymous body)

private theorem readUnder_parse {first : Token} {rest left : List Token} {form : Form} (part : first :: rest <:+ tokens)
    (read : (result (parse table (first :: rest))).1 = .ok (form, left)) : ReadUnder table tokens form := by
  have tail : rest <:+ tokens := (List.suffix_cons first rest).trans part
  by_cases defines : first = .keyword .definition
  · subst defines
    rw [result_parse_definition, result_parseDefinition] at read
    rcases head : (Prototype.parse rest).result with reason | ⟨proto, inner⟩
    · simp [head] at read
    · simp only [head, bodyResult] at read
      rcases body : (Expr.parse (proto.declareIn table) inner).result with reason | ⟨value, after⟩
      · simp [body] at read
      · simp only [body] at read
        cases read
        exact .definition tail head body
  · by_cases declares : first = .keyword .external
    · subst declares
      rw [result_parse_declaration, result_parseDeclaration] at read
      rcases head : (Prototype.parse rest).result with reason | ⟨proto, after⟩
      · simp [head] at read
      · simp only [head] at read
        cases read
        exact .declaration tail head
    · rw [result_parse_expression defines declares] at read
      rcases body : (Expr.parse table (first :: rest)).result with reason | ⟨value, after⟩
      · simp [body] at read
      · simp only [body, mapping_ok] at read
        cases read
        exact .bare part body

theorem readUnder_next? {item : Item} {form : Form} (found : next? table tokens = some item)
    (read : item.form = .ok form) : ReadUnder table tokens form := by
  have dropped : tokens.dropWhile (· = .mark .semicolon) <:+ tokens := List.dropWhile_suffix _
  rw [next?_eq] at found
  split at found
  · contradiction
  · next first rest begins =>
    cases found
    rw [begins] at dropped
    rw [form_item] at read
    cases parsed : (result (parse table (first :: rest))).1 with
    | error reason =>
      rw [parsed] at read
      contradiction
    | ok whole =>
      rw [parsed] at read
      cases read
      exact readUnder_parse dropped parsed

/-- What is left of a form that could not be read: all from the next boundary on. -/
theorem rest_item {first : Token} {rest : List Token} {reason : SyntaxError}
    (failed : (item table first rest).form = .error reason) :
    (item table first rest).rest = rest.dropWhile (!·.isBoundary) := by
  unfold item at failed ⊢
  generalize result (parse table (first :: rest)) = read at failed ⊢
  rcases read with ⟨reason | ⟨form, left⟩, after⟩
  · rfl
  · contradiction

theorem item_before (boundary : stop.isBoundary = true) (table : PrecedenceTable) (first : Token) (rest : List Token) :
    item table first (rest ++ stop :: more) = (item table first rest).before stop more := by
  have skipped : (rest ++ stop :: more).dropWhile (!·.isBoundary) = rest.dropWhile (!·.isBoundary) ++ stop :: more :=
    Token.dropWhile_append_stop _ (by simp [boundary]) rest more
  unfold item
  rw [result_parse_before boundary, skipped]
  rcases result (parse table (first :: rest)) with ⟨reason | ⟨form, left⟩, after⟩ <;> rfl

/-- The items before a semicolon are those of the input that ends there; what comes next stands after it. -/
theorem next?_append (table : PrecedenceTable) (tokens more : List Token) :
    next? table (tokens ++ .mark .semicolon :: more) =
      match next? table tokens with
      | none => next? table more
      | some item => some (item.before (.mark .semicolon) more) := by
  rw [next?_eq, next?_eq table tokens, List.dropWhile_append]
  cases tokens.dropWhile (· = .mark .semicolon) with
  | nil => simp [next?_eq table more]
  | cons first rest => exact congrArg some (item_before rfl table first rest)

/-- Where the input ends too early, nothing is left of it. -/
theorem rest_of_unfinished {item : Item} (found : next? table tokens = some item) {expected : List Expectation}
    (unfinished : item.form = .error (.unexpected none expected)) : item.rest = [] := by
  rw [next?_eq] at found
  split at found
  · contradiction
  · next first rest _ =>
    cases found
    rw [rest_item unfinished]
    cases left : rest.dropWhile (!·.isBoundary) with
    | nil => rfl
    | cons stop more =>
      -- With a boundary in the rest, the error would have been met there and not at the end.
      have boundary : stop.isBoundary = true := by
        have head := List.head?_dropWhile_not (!·.isBoundary) rest
        simpa [left] using head
      have split : rest = rest.takeWhile (!·.isBoundary) ++ stop :: more := by
        rw [← left, List.takeWhile_append_dropWhile]
      rw [split, item_before boundary] at unfinished
      exact absurd unfinished (form_before_ne _ stop more expected)

section

variable {σ : Type} {handle : σ → PrecedenceTable → Except SyntaxError Form → σ × PrecedenceTable}

theorem fold_of_none (state : σ) (none : next? table tokens = none) :
    fold handle state table tokens = (state, table) := by
  rw [fold.eq_def]
  split
  · rfl
  · next found =>
    rw [none] at found
    contradiction

theorem fold_of_some (state : σ) {item : Item} (found : next? table tokens = some item) :
    fold handle state table tokens =
      fold handle (handle state item.table item.form).1 (handle state item.table item.form).2 item.rest := by
  rw [fold.eq_def]
  split
  · next none =>
    rw [none] at found
    contradiction
  · next found' =>
    cases found.symm.trans found'
    rfl

theorem fold_congr (state : σ) {others : List Token} (same : next? table tokens = next? table others) :
    fold handle state table tokens = fold handle state table others := by
  cases found : next? table others with
  | none => rw [fold_of_none state (same.trans found), fold_of_none state found]
  | some item => rw [fold_of_some state (same.trans found), fold_of_some state found]

end

end Form

end Kaleidoscope
