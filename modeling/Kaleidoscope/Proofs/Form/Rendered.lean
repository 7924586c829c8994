import Mathlib.Data.List.Basic
import Kaleidoscope.Proofs.Expr.Rendered
import Kaleidoscope.Proofs.Form.Heads
import Kaleidoscope.Proofs.Form.Separation
import Kaleidoscope.Proofs.PrecedenceTable

/-!
Written forms read back. The text of an expression, a declaration or a definition is read as that one form, or is too
deep.
-/

namespace Kaleidoscope

open Reading Reading.Result Token

namespace Token

private theorem significant_eq_scan {source : String} (quiet : ∀ token ∈ scan source.toList, token.isComment = false) :
    significant source = scan source.toList := by
  apply List.filter_eq_self.mpr
  simpa using quiet

end Token

namespace Prototype

/-- A head that can be written. -/
inductive Writable : Prototype → Prop where
  | function {name : String} {params : List String} (named : (ident name).WrittenAs name)
      (each : ∀ param ∈ params, (ident param).WrittenAs param) : Writable (.function name params)
  | unary {token : Token} {op : Char} {param : String} (names : token.operatorSymbol? = some op)
      (symbol : token.WrittenAs op.toString) (named : (ident param).WrittenAs param) : Writable (.unary op param)
  | binary {token : Token} {op : Char} {precedence : Int} {lhs rhs : String} (names : token.operatorSymbol? = some op)
      (symbol : token.WrittenAs op.toString) (range : 1 ≤ precedence ∧ precedence ≤ 100)
      (left : (ident lhs).WrittenAs lhs) (right : (ident rhs).WrittenAs rhs) :
      Writable (.binary op precedence lhs rhs)

/-- A head that can be read from text. -/
def Readable (proto : Prototype) : Prop :=
  ∃ source tokens rest, tokens <:+ significant source ∧ parse tokens = .ok (proto, rest)

private theorem text?_of_operatorSymbol? {token : Token} {op : Char} (names : token.operatorSymbol? = some op) :
    token.text? = some op.toString := by
  cases token <;> cases names <;> rfl

private theorem lexed_params {params : List String} (lexed : ∀ token ∈ paramTokens params, token.Lexed) :
    ∀ param ∈ params, (ident param).WrittenAs param := by
  intro param member
  exact lexed (ident param) (by simp [paramTokens, member]) param rfl

theorem Draft.SpelledBy.writable {draft : Draft} {tokens : List Token} (spelled : draft.SpelledBy tokens)
    (lexed : ∀ token ∈ tokens, token.Lexed) {proto : Prototype} (checked : draft.check = .ok proto) :
    proto.Writable := by
  obtain ⟨precedence, valid, rfl, count⟩ := Draft.check_cases checked
  have range := Draft.range_checkPrecedence valid
  cases spelled with
  | function name params =>
    obtain ⟨named, others⟩ := List.forall_mem_cons.mp lexed
    cases valid
    exact .function (named name rfl) (lexed_params others)
  | unary names params =>
    obtain ⟨symbol, others⟩ := List.forall_mem_cons.mp (List.forall_mem_cons.mp lexed).2
    obtain ⟨param, rfl⟩ := List.length_eq_one_iff.mp (count 1 rfl)
    cases valid
    exact .unary names (symbol _ (text?_of_operatorSymbol? names)) (lexed_params others param (by simp))
  | binary names params =>
    obtain ⟨symbol, others⟩ := List.forall_mem_cons.mp (List.forall_mem_cons.mp lexed).2
    obtain ⟨lhs, rhs, rfl⟩ := List.length_eq_two.mp (count 2 rfl)
    exact .binary names (symbol _ (text?_of_operatorSymbol? names)) range (lexed_params others lhs (by simp))
      (lexed_params others rhs (by simp))
  | precedence names value params =>
    obtain ⟨symbol, others⟩ := List.forall_mem_cons.mp (List.forall_mem_cons.mp lexed).2
    obtain ⟨lhs, rhs, rfl⟩ := List.length_eq_two.mp (count 2 rfl)
    obtain ⟨_, others⟩ := List.forall_mem_cons.mp others
    exact .binary names (symbol _ (text?_of_operatorSymbol? names)) range (lexed_params others lhs (by simp))
      (lexed_params others rhs (by simp))

theorem Readable.writable {proto : Prototype} (readable : proto.Readable) : proto.Writable := by
  obtain ⟨source, tokens, rest, part, read⟩ := readable
  unfold parse at read
  split at read
  · contradiction
  · next written _ same =>
    split at read
    · contradiction
    · next checked =>
      cases read
      have result : (draft tokens).result = .ok (written, rest.1) := by
        rw [same]
        rfl
      obtain ⟨used, split, spelled⟩ := takes_draft tokens written rest.1 result
      refine spelled.writable (fun token member => ?_) checked
      apply lexed_significant source
      apply part.subset
      rw [split]
      exact List.mem_append_left _ member

/-! How heads are written. -/

private theorem scan_params {params : List String} (each : ∀ param ∈ params, (ident param).WrittenAs param) :
    scan ((" ".intercalate params).toList ++ [')']) = params.map .ident ++ [.mark .closeParen] := by
  induction params with
  | nil => simp [scan_closeParen]
  | cons param params ih =>
    obtain ⟨named, others⟩ := List.forall_mem_cons.mp each
    cases params with
    | nil =>
      rw [String.intercalate_singleton, named.scan_append rfl ⟨rfl, rfl⟩, scan_closeParen]
      rfl
    | cons next params =>
      have text : (" ".intercalate (param :: next :: params)).toList ++ [')'] =
          param.toList ++ ' ' :: ((" ".intercalate (next :: params)).toList ++ [')']) := by
        simp [String.intercalate_cons_cons]
      rw [text, scan_name named, ih others]
      rfl

private theorem scan_paramList {params : List String} (each : ∀ param ∈ params, (ident param).WrittenAs param) :
    scan ('(' :: ((" ".intercalate params).toList ++ [')'])) = paramTokens params := by
  rw [scan_openParen, scan_params each]
  rfl

/-- A precedence is written as a number that stands for it. -/
theorem written_precedence {precedence : Int} (range : 1 ≤ precedence ∧ precedence ≤ 100) :
    ∃ value : Double, (number value).WrittenAs (toString precedence) ∧ value.toNat? = some precedence.toNat := by
  obtain ⟨n, rfl⟩ := Int.eq_ofNat_of_zero_le (Int.le_trans (by decide) range.1)
  have exact : ∀ n < 101, (Decimal.toDouble ⟨false, n, .ofNat 0⟩).toNat? = some n := by decide +kernel
  refine ⟨Decimal.toDouble ⟨false, n, .ofNat 0⟩, ?_, exact n (by omega)⟩
  apply writtenAs_number
  have text : (toString (n : Int)).toList = Nat.toDigits 10 n ++ List.replicate 0 '0' := by
    rw [List.replicate_zero, List.append_nil]
    exact Nat.toList_repr
  rw [text]
  exact Decimal.writes_whole n 0

private theorem Writable.spelledBy {proto : Prototype} (writable : proto.Writable) :
    ∃ draft : Draft, draft.SpelledBy (scan proto.render.toList) ∧ draft.check = .ok proto := by
  cases writable with
  | @function name params named each =>
    have text : (render (.function name params)).toList =
        name.toList ++ '(' :: ((" ".intercalate params).toList ++ [')']) := by
      simp [render, Prototype.function]
    rw [text, named.scan_append rfl ⟨rfl, rfl⟩, scan_paramList each]
    exact ⟨_, .function name params, rfl⟩
  | @unary token op param names symbol named =>
    have text : (render (.unary op param)).toList =
        Keyword.unary.text.toList ++ op :: '(' :: ((" ".intercalate [param]).toList ++ [')']) := by
      simp [render, Prototype.unary, unaryName, Keyword.text]
    rw [text, (writtenAs_keyword .unary).scan_append rfl (symbol.isSymbol names).1.toCuts, symbol.scan_cons names,
      scan_paramList (by simpa using named)]
    exact ⟨_, .unary names [param], rfl⟩
  | @binary token op precedence lhs rhs names symbol range left right =>
    obtain ⟨value, written, stands⟩ := written_precedence range
    have text : (render (.binary op precedence lhs rhs)).toList =
        Keyword.binary.text.toList ++ op :: ' ' :: ((toString precedence).toList ++
          ' ' :: '(' :: ((" ".intercalate [lhs, rhs]).toList ++ [')'])) := by
      simp [render, Prototype.binary, binaryName, Keyword.text]
    rw [text, (writtenAs_keyword .binary).scan_append rfl (symbol.isSymbol names).1.toCuts, symbol.scan_cons names,
      scan_blank, written.scan_append rfl ⟨rfl, rfl⟩, scan_blank, scan_paramList (by simpa using ⟨left, right⟩)]
    refine ⟨_, .precedence names value [lhs, rhs], ?_⟩
    have whole : 1 ≤ precedence.toNat ∧ precedence.toNat ≤ 100 := by omega
    have same : (precedence.toNat : Int) = precedence := by omega
    simp [Draft.check, Draft.checkPrecedence, stands, whole, same, PrototypeKind.operands?, Prototype.binary]

theorem Draft.SpelledBy.inside {draft : Draft} {tokens : List Token} (spelled : draft.SpelledBy tokens) :
    ∀ token ∈ tokens, token.isBoundary = false ∧ token.isComment = false := by
  have params : ∀ params, ∀ token ∈ paramTokens params, token.isBoundary = false ∧ token.isComment = false := by
    intro params token member
    simp only [paramTokens, List.mem_cons, List.mem_append, List.mem_map, List.not_mem_nil, or_false] at member
    rcases member with rfl | ⟨_, _, rfl⟩ | rfl <;> exact ⟨rfl, rfl⟩
  have symbol : ∀ {token : Token} {op : Char}, token.operatorSymbol? = some op →
      token.isBoundary = false ∧ token.isComment = false := by
    intro token op names
    cases token <;> cases names <;> exact ⟨rfl, rfl⟩
  cases spelled with
  | function name names => exact List.forall_mem_cons.mpr ⟨⟨rfl, rfl⟩, params names⟩
  | unary op names =>
    exact List.forall_mem_cons.mpr ⟨⟨rfl, rfl⟩, List.forall_mem_cons.mpr ⟨symbol op, params names⟩⟩
  | binary op names =>
    exact List.forall_mem_cons.mpr ⟨⟨rfl, rfl⟩, List.forall_mem_cons.mpr ⟨symbol op, params names⟩⟩
  | precedence op value names =>
    refine List.forall_mem_cons.mpr ⟨⟨rfl, rfl⟩, List.forall_mem_cons.mpr ⟨symbol op, ?_⟩⟩
    exact List.forall_mem_cons.mpr ⟨⟨rfl, rfl⟩, params names⟩

theorem Writable.inside {proto : Prototype} (writable : proto.Writable) :
    ∀ token ∈ scan proto.render.toList, token.isBoundary = false ∧ token.isComment = false := by
  obtain ⟨draft, spelled, _⟩ := writable.spelledBy
  exact spelled.inside

/-- The written form of a head reads back. -/
theorem Writable.result_parse {proto : Prototype} (writable : proto.Writable) (rest : List Token) :
    (parse (scan proto.render.toList ++ rest)).result = .ok (proto, rest) := by
  obtain ⟨draft, spelled, checked⟩ := writable.spelledBy
  rw [Prototype.result_parse, result_draft spelled, andThen_ok, checked]

private theorem Writable.precedence_pos {proto : Prototype} (writable : proto.Writable) : 1 ≤ proto.precedence := by
  cases writable with
  | function named each => exact (by decide : (1 : Int) ≤ defaultPrecedence)
  | unary names symbol named => exact (by decide : (1 : Int) ≤ defaultPrecedence)
  | binary names symbol range left right => exact range.1

/-- The heads that can be read are those that can be written. -/
theorem readable_iff_writable {proto : Prototype} : proto.Readable ↔ proto.Writable := by
  refine ⟨Readable.writable, fun writable => ?_⟩
  have read := writable.result_parse []
  rw [List.append_nil] at read
  obtain ⟨_, read⟩ := result_eq_ok read
  have quiet := significant_eq_scan fun token member => (writable.inside token member).2
  exact ⟨proto.render, _, _, quiet ▸ List.suffix_refl _, read⟩

/-- The operator of a head joins operands once it is declared, and so does every other one that did before. -/
theorem Writable.joins_declareIn {proto : Prototype} (writable : proto.Writable) {table : PrecedenceTable} {op : Char}
    (joins : table.Joins op ∨ proto.binarySymbol? = some op) : (proto.declareIn table).Joins op := by
  unfold declareIn
  cases found : proto.binarySymbol? with
  | none => exact joins.resolve_right (by simp [found])
  | some symbol =>
    unfold PrecedenceTable.Joins
    simp only [PrecedenceTable.get?_declare]
    split
    · exact ⟨_, rfl, by have := writable.precedence_pos; omega⟩
    · next other => exact joins.resolve_right fun same => other (Option.some.inj (same.symm.trans found))

end Prototype

namespace Form

variable {table : PrecedenceTable}

private theorem fst_bodyResult (proto : Prototype) (tokens : List Token) :
    (bodyResult table proto tokens).1 =
      (Expr.parse (proto.declareIn table) tokens).result.mapping (definition proto) := by
  unfold bodyResult
  rcases (Expr.parse (proto.declareIn table) tokens).result with reason | ⟨body, rest⟩ <;> rfl

private theorem readAll_of_next? {source : String} {item : Item} (found : next? table (significant source) = some item)
    (last : item.rest = []) : (readAll table source).map Prod.fst = [item.form] := by
  unfold readAll
  dsimp only
  rw [fold_of_some _ found, last, fold_of_none _ rfl]
  rfl

/-- Tokens of one form, read or too deep, give one item. -/
theorem next?_of_within {first : Token} {rest : List Token} (begins : first ≠ .mark .semicolon)
    (inside : ∀ token ∈ rest, token.isBoundary = false) {enough : Prop} [Decidable enough] {form : Form}
    (within : (result (parse table (first :: rest))).1.Within enough form []) :
    ∃ item, next? table (first :: rest) = some item ∧
      item.form = (if enough then .ok form else .error .nestingTooDeep) ∧ item.rest = [] := by
  have skipped : (first :: rest).dropWhile (· = .mark .semicolon) = first :: rest := by simp [begins]
  have left : rest.dropWhile (!·.isBoundary) = [] := List.dropWhile_eq_nil_iff.mpr (by simpa using inside)
  refine ⟨item table first rest, by rw [next?_eq, skipped], ?_⟩
  unfold item
  generalize result (parse table (first :: rest)) = read at within ⊢
  obtain ⟨read, after⟩ := read
  by_cases room : enough
  · obtain rfl := within.1 room
    simp [room]
  · obtain rfl := within.2 room
    simp [room, left]

/-- A text that is one form, read or too deep, gives one item. -/
theorem readAll_of_within {source : String} {first : Token} {rest : List Token}
    (tokens : scan source.toList = first :: rest) (begins : first ≠ .mark .semicolon) (quiet : first.isComment = false)
    (inside : ∀ token ∈ rest, token.isBoundary = false ∧ token.isComment = false) {enough : Prop} [Decidable enough]
    {form : Form} (within : (result (parse table (first :: rest))).1.Within enough form []) :
    (readAll table source).map Prod.fst = [if enough then .ok form else .error .nestingTooDeep] := by
  have significant : significant source = first :: rest := by
    rw [significant_eq_scan, tokens]
    rw [tokens]
    exact List.forall_mem_cons.mpr ⟨quiet, fun token member => (inside token member).2⟩
  obtain ⟨item, found, reads, last⟩ := next?_of_within begins (fun token member => (inside token member).1) within
  rw [readAll_of_next? (significant ▸ found) last, reads]

/-- The written form of an expression is read to its end, or is too deep. -/
theorem within_parse {e : Expr} (rendered : Expr.Rendered table e) :
    (Expr.parse table (scan e.render.toList)).result.Within (e.nesting < maxNesting) e [] := by
  have accepted := rendered.alone.accepted maxNesting [] (by simp [Grammar.Stops]) (by simp [Grammar.Apart])
  rw [List.append_nil] at accepted
  exact accepted

private theorem readAll_expression {e : Expr} (writable : e.Writable table.Joins) :
    (readAll table e.render).map Prod.fst =
      [if e.nesting < maxNesting then .ok (.definition .anonymous e) else .error .nestingTooDeep] := by
  have rendered := writable.rendered fun _ joins => joins
  have within := within_parse rendered
  have inside := rendered.inside
  obtain ⟨first, rest, same, starts⟩ := rendered.operand_head
  rw [same] at within inside
  obtain ⟨⟨_, quiet⟩, inside⟩ := List.forall_mem_cons.mp inside
  refine readAll_of_within same ?_ quiet inside ?_
  · rintro rfl
    contradiction
  · rw [result_parse_expression]
    · exact within.mapping _
    · rintro rfl
      contradiction
    · rintro rfl
      contradiction

private theorem readAll_declaration {proto : Prototype} (writable : proto.Writable) :
    (readAll table (declaration proto).render).map Prod.fst = [.ok (declaration proto)] := by
  have text : (declaration proto).render.toList = Keyword.external.text.toList ++ ' ' :: proto.render.toList := by
    simp [render, toExpr, Expr.render, Keyword.text]
  have tokens : scan (declaration proto).render.toList = .keyword .external :: scan proto.render.toList := by
    rw [text, scan_keyword]
  have within : (result (parse table (.keyword .external :: scan proto.render.toList))).1.Within True
      (declaration proto) [] := by
    have read := writable.result_parse []
    rw [List.append_nil] at read
    rw [result_parse_declaration, result_parseDeclaration, read]
    exact ⟨fun _ => rfl, fun never => absurd trivial never⟩
  simpa using readAll_of_within tokens (by decide) rfl writable.inside within

private theorem readAll_definition {proto : Prototype} {body : Expr} (head : proto.Writable)
    (writable : body.Writable fun op => table.Joins op ∨ proto.binarySymbol? = some op) :
    (readAll table (definition proto body).render).map Prod.fst =
      [if body.nesting < maxNesting then .ok (definition proto body) else .error .nestingTooDeep] := by
  have rendered := writable.rendered fun _ joins => head.joins_declareIn joins
  have text : (definition proto body).render.toList =
      Keyword.definition.text.toList ++ ' ' :: (proto.render.toList ++ ' ' :: body.render.toList) := by
    simp [render, toExpr, Expr.render, Keyword.text]
  have tokens : scan (definition proto body).render.toList =
      .keyword .definition :: (scan proto.render.toList ++ scan body.render.toList) := by
    rw [text, scan_keyword, scan_append ⟨rfl, rfl⟩ (.inr fun token member => (head.inside token member).2), scan_blank]
  refine readAll_of_within tokens (by decide) rfl (List.forall_mem_append.mpr ⟨head.inside, rendered.inside⟩) ?_
  rw [result_parse_definition, result_parseDefinition, head.result_parse]
  dsimp only
  rw [fst_bodyResult]
  exact (within_parse rendered).mapping _

end Form

/-- Whatever can be written as a form reads back as that form, or is too deep. The body of a definition may use the
operator that is being defined. -/
theorem written_forms_read_back (table : PrecedenceTable) :
    (∀ e : Expr, e.Writable table.Joins →
      (Form.readAll table e.render).map Prod.fst =
        [if e.nesting < maxNesting then .ok (.definition .anonymous e) else .error .nestingTooDeep]) ∧
    (∀ (proto : Prototype) (body : Expr), proto.Readable →
      body.Writable (fun op => table.Joins op ∨ proto.binarySymbol? = some op) →
      (Form.readAll table (Form.definition proto body).render).map Prod.fst =
        [if body.nesting < maxNesting then .ok (.definition proto body) else .error .nestingTooDeep]) ∧
    ∀ proto : Prototype, proto.Readable →
      (Form.readAll table (Form.declaration proto).render).map Prod.fst = [.ok (.declaration proto)] := by
  refine ⟨fun e writable => ?_, fun proto body readable writable => ?_, fun proto readable => ?_⟩
  · exact Form.readAll_expression writable
  · exact Form.readAll_definition readable.writable writable
  · exact Form.readAll_declaration readable.writable

theorem written_forms_read_back_or :
    Expr.Writable PrecedenceTable.standard.Joins
      (.loop "i" (.number .one) (.binary '<' (.var "i") (.var "1.2.3")) none (.call "f" [.unary '!' (.var "i")])) ∧
    (Prototype.binary '|' 5 "a" "b").Readable ∧
    Expr.Writable (fun op => PrecedenceTable.standard.Joins op ∨
      (Prototype.binary '|' 5 "a" "b").binarySymbol? = some op) (.binary '|' (.var "a") (.var "b")) ∧
    (Form.readAll .standard "(for i = 1, (i < 1.2.3) in f(!i))").map Prod.fst =
      [.ok (.definition .anonymous (.loop "i" (.number .one) (.binary '<' (.var "i") (.var "1.2.3")) none
        (.call "f" [.unary '!' (.var "i")])))] ∧
    (Form.readAll .standard "def binary| 5 (a b) (a | b)").map Prod.fst =
      [.ok (.definition (.binary '|' 5 "a" "b") (.binary '|' (.var "a") (.var "b")))] ∧
    (Form.readAll .standard "extern binary| 5 (a b)").map Prod.fst = [.ok (.declaration (.binary '|' 5 "a" "b"))] := by
  have loop : Expr.Writable PrecedenceTable.standard.Joins
      (.loop "i" (.number .one) (.binary '<' (.var "i") (.var "1.2.3")) none (.call "f" [.unary '!' (.var "i")])) := by
    refine .loop (by decide) (.number (by decide) (by decide)) (.binary (.inl (by decide)) ⟨10, by decide, by decide⟩
      (.var (by decide)) (.var (by decide))) (by simp) (.call (by decide) ?_)
    simpa using .unary (by decide) (.var (by decide))
  have head : (Prototype.binary '|' 5 "a" "b").Readable :=
    Prototype.readable_iff_writable.mpr <|
      .binary (rfl : (other '|').operatorSymbol? = some '|') (by decide) (by decide) (by decide) (by decide)
  have body : Expr.Writable (fun op => PrecedenceTable.standard.Joins op ∨
      (Prototype.binary '|' 5 "a" "b").binarySymbol? = some op) (.binary '|' (.var "a") (.var "b")) :=
    .binary (.inr (by decide)) (.inr (by decide)) (.var (by decide)) (.var (by decide))
  obtain ⟨expressions, definitions, declarations⟩ := written_forms_read_back .standard
  refine ⟨loop, head, body, ?_, ?_, ?_⟩
  · have text : Expr.render (.loop "i" (.number .one) (.binary '<' (.var "i") (.var "1.2.3")) none
        (.call "f" [.unary '!' (.var "i")])) = "(for i = 1, (i < 1.2.3) in f(!i))" := by decide +kernel
    have read := expressions _ loop
    rwa [text, if_pos (by decide)] at read
  · have text : (Form.definition (.binary '|' 5 "a" "b") (.binary '|' (.var "a") (.var "b"))).render =
        "def binary| 5 (a b) (a | b)" := by decide +kernel
    have read := definitions _ _ head body
    rwa [text, if_pos (by decide)] at read
  · have text : (Form.declaration (.binary '|' 5 "a" "b")).render = "extern binary| 5 (a b)" := by decide +kernel
    have read := declarations _ head
    rwa [text] at read

end Kaleidoscope
