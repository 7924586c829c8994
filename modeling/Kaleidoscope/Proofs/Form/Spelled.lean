import Kaleidoscope.Form.Parse
import Kaleidoscope.Proofs.Expr.Climbing
import Kaleidoscope.Proofs.Token.Spelling

/-!
What can be read from text: the operators of its expressions are symbols, the names it calls are no numbers, and the
heads of operators have the right number of parameters.
-/

namespace Kaleidoscope

/-- An expression that can come from text. -/
inductive Expr.Spelled : Expr → Prop where
  | number (value : Double) : Spelled (.number value)
  | var (name : String) : Spelled (.var name)
  | binary {op : Char} {lhs rhs : Expr} (symbol : Token.isWordPart op = false) (left : Spelled lhs)
      (right : Spelled rhs) : Spelled (.binary op lhs rhs)
  | unary {op : Char} {operand : Expr} (symbol : Token.isWordPart op = false) (inner : Spelled operand) :
      Spelled (.unary op operand)
  | cond {test yes no : Expr} (tested : Spelled test) (first : Spelled yes) (second : Spelled no) :
      Spelled (.cond test yes no)
  | loop {name : String} {start stop body : Expr} {step : Option Expr} (first : Spelled start) (last : Spelled stop)
      (stride : ∀ inner, step = some inner → Spelled inner) (inner : Spelled body) :
      Spelled (.loop name start stop step body)
  | call {callee : String} {args : List Expr} (named : ¬ Numbered callee) (each : ∀ arg ∈ args, Spelled arg) :
      Spelled (.call callee args)
  | bind {bindings : List (String × Expr)} {body : Expr} (each : ∀ binding ∈ bindings, Spelled binding.2)
      (inner : Spelled body) : Spelled (.bind bindings body)

/-- The head of a function without a name, or one that can come from text. -/
structure Prototype.Spelled (proto : Prototype) : Prop where
  named : proto.isAnonymous = false → ¬ Numbered proto.name
  operands : OperandCount proto.name proto.params.length
  bare : proto.isAnonymous = true → proto.params = []

/-- A form that can come from text. -/
def Form.Spelled : Form → Prop
  | declaration proto => proto.Spelled ∧ proto.isAnonymous = false
  | definition proto body => proto.Spelled ∧ body.Spelled

namespace Reading

variable {α β : Type} {tokens : List Token} {good : α → Prop} {better : β → Prop}

/-- From tokens that can come from text, `reading` takes only good values off the front. -/
def Gives (reading : Reading α tokens) (good : α → Prop) : Prop :=
  (∀ token ∈ tokens, token.Spelled) → ∀ value rest, reading = .ok (value, rest) → good value ∧ rest.1 <:+ tokens

theorem Gives.error (reason : SyntaxError) : Gives (.error reason : Reading α tokens) good :=
  fun _ _ _ read => by contradiction

theorem Gives.under {rest : List Token} {reading : Reading α rest} (gives : reading.Gives good)
    (suffix : rest <:+ tokens) (shorter : rest.length < tokens.length) : (reading.under shorter).Gives good := by
  intro spelled value left read
  cases reading with
  | error reason => contradiction
  | ok result =>
    cases read
    obtain ⟨holds, suffix'⟩ := gives (fun token member => spelled token (suffix.subset member)) _ _ rfl
    exact ⟨holds, suffix'.trans suffix⟩

theorem Gives.one {token : Token} {rest : List Token} {value : α} (holds : token.Spelled → good value) :
    (Reading.one token rest value).Gives good := by
  intro spelled value' rest' read
  cases read
  exact ⟨holds (spelled token List.mem_cons_self), List.suffix_cons _ _⟩

theorem Gives.skipping {token : Token} {reading : Reading α tokens}
    (gives : token.Spelled → reading.Gives good) : (reading.skipping token).Gives good := by
  intro spelled
  exact (gives (spelled token List.mem_cons_self)).under (List.suffix_cons _ _) _ spelled

theorem Gives.mapping {f : α → β} {reading : Reading α tokens} (gives : reading.Gives good)
    (keeps : ∀ value, good value → better (f value)) : (reading.mapping f).Gives better := by
  intro spelled value rest read
  cases reading with
  | error reason => contradiction
  | ok result =>
    cases read
    obtain ⟨holds, suffix⟩ := gives spelled _ _ rfl
    exact ⟨keeps _ holds, suffix⟩

theorem Gives.returning {value : β} {reading : Reading α tokens} (gives : reading.Gives good) (holds : better value) :
    (reading.returning value).Gives better := by
  intro spelled value' rest read
  cases reading with
  | error reason => contradiction
  | ok result =>
    cases read
    exact ⟨holds, (gives spelled _ _ rfl).2⟩

theorem Gives.andThen {first : Reading α tokens} {next : α → (rest : List Token) → Reading β rest}
    (gives : first.Gives good) (later : ∀ value rest, good value → (next value rest).Gives better) :
    (first.andThen next).Gives better := by
  intro spelled
  unfold Reading.andThen
  split
  · exact Gives.error _ spelled
  · next value rest shorter =>
    obtain ⟨holds, suffix⟩ := gives spelled _ _ rfl
    exact (later value rest holds).under suffix _ spelled

end Reading

open Reading

namespace Token

private theorem gives_expect (token : Token) (others : List Expectation) (tokens : List Token) :
    (expect token others tokens).Gives fun _ => True := by
  unfold expect
  split
  · exact .error _
  · split
    · exact .one fun _ => trivial
    · exact .error _

private theorem gives_identifier (tokens : List Token) : (identifier tokens).Gives Spellable := by
  unfold identifier
  split
  · exact .one id
  · exact .error _

end Token

namespace Expr

variable {rule : Rule}

/-- A rule that reads expressions that can come from text. -/
def Rule.Reads (rule : Rule) : Prop := ∀ tokens, (rule tokens).Gives Spelled

private theorem spelled_operatorSymbol {token : Token} (spelled : token.Spelled) {op : Char}
    (found : token.operatorSymbol? = some op) : Token.isWordPart op = false := by
  cases token <;> cases found <;> exact spelled

private theorem gives_links (table : PrecedenceTable) (reads : rule.Reads) (tokens : List Token)
    (spelled : ∀ token ∈ tokens, token.Spelled) {more : List Link} {rest : List Token}
    (read : linksResult table rule tokens = .ok (more, rest)) :
    (∀ link ∈ more, Token.isWordPart link.op = false ∧ link.operand.Spelled) ∧ rest <:+ tokens := by
  rw [linksResult.eq_def] at read
  split at read
  · cases read
    exact ⟨List.forall_mem_nil _, List.suffix_refl _⟩
  · next token after =>
    obtain ⟨head, tail⟩ := List.forall_mem_cons.mp spelled
    split at read
    · cases read
      exact ⟨List.forall_mem_nil _, List.suffix_refl _⟩
    · next op found =>
      split at read
      · contradiction
      · split at read
        · cases read
          exact ⟨List.forall_mem_nil _, List.suffix_refl _⟩
        · split at read
          · contradiction
          · next value left same =>
            have less : left.1.length < (token :: after).length := Nat.lt_succ_of_lt left.2
            cases others : linksResult table rule left.1 with
            | error reason =>
              rw [others] at read
              contradiction
            | ok result =>
              rw [others] at read
              cases read
              obtain ⟨operand, suffix⟩ := reads _ tail _ _ same
              obtain ⟨others, suffix'⟩ := gives_links table reads left.1
                (fun token member => tail token (suffix.subset member)) others
              refine ⟨List.forall_mem_cons.mpr ⟨⟨spelled_operatorSymbol head found, operand⟩, others⟩, ?_⟩
              exact (suffix'.trans suffix).trans (List.suffix_cons _ _)
termination_by tokens.length

private theorem gives_chain (table : PrecedenceTable) (reads : rule.Reads) : Rule.Reads (chain table rule) := by
  intro tokens spelled value rest read
  have whole : (chain table rule tokens).result = .ok (value, rest.1) := by rw [read, result_ok]
  rw [result_chain] at whole
  unfold parts at whole
  cases same : rule tokens with
  | error reason =>
    rw [same] at whole
    contradiction
  | ok operand =>
    obtain ⟨first, after⟩ := operand
    obtain ⟨operand, suffix⟩ := reads _ spelled _ _ same
    rw [same, result_ok, Result.andThen_ok] at whole
    cases others : linksResult table rule after.1 with
    | error reason =>
      rw [others] at whole
      contradiction
    | ok result =>
      obtain ⟨more, left⟩ := result
      rw [others] at whole
      obtain ⟨each, suffix'⟩ := gives_links table reads after.1
        (fun token member => spelled token (suffix.subset member)) others
      obtain ⟨rfl, last⟩ := Prod.mk.inj (Except.ok.inj whole)
      rw [← last]
      exact ⟨Chain.holds_tree _ _ (fun _ _ _ => .binary) operand each, suffix'.trans suffix⟩

private theorem gives_moreArguments (reads : rule.Reads) (tokens : List Token) :
    (moreArguments rule tokens).Gives fun args => ∀ arg ∈ args, arg.Spelled := by
  induction size : tokens.length using Nat.strongRecOn generalizing tokens with
  | _ size ih =>
    subst size
    rw [moreArguments.eq_def]
    split
    · next rest =>
      split
      · exact .error _
      · next arg after shorter same =>
        intro spelled
        obtain ⟨_, tail⟩ := List.forall_mem_cons.mp spelled
        obtain ⟨first, suffix⟩ := reads _ tail _ _ same
        have others := ih after.length (Nat.lt_succ_of_lt shorter) after rfl
        refine Gives.skipping (fun _ => Gives.under ?_ suffix shorter) spelled
        exact others.mapping fun args each => List.forall_mem_cons.mpr ⟨first, each⟩
    · exact (Token.gives_expect _ _ _).returning (List.forall_mem_nil _)

private theorem gives_arguments (reads : rule.Reads) (room : Bool) (tokens : List Token) :
    (arguments rule room tokens).Gives fun args => ∀ arg ∈ args, arg.Spelled := by
  unfold arguments
  split
  · refine (reads tokens).andThen fun arg rest first => ?_
    exact (gives_moreArguments reads rest).mapping fun args each => List.forall_mem_cons.mpr ⟨first, each⟩
  · split
    · exact (Token.gives_expect _ _ _).returning (List.forall_mem_nil _)
    · exact .error _

private theorem gives_binding (reads : rule.Reads) (tokens : List Token) :
    (binding rule tokens).Gives fun bound => bound.2.Spelled := by
  refine (Token.gives_identifier tokens).andThen fun name rest _ => ?_
  refine (Token.gives_expect _ _ _).andThen fun _ rest _ => ?_
  exact (reads rest).mapping fun _ init => init

private theorem gives_bindingsContinue (tokens : List Token) : (bindingsContinue tokens).Gives fun _ => True := by
  unfold bindingsContinue
  split
  · exact .one fun _ => trivial
  · exact (Token.gives_expect _ _ _).returning trivial

private theorem gives_bindings (reads : rule.Reads) (tokens : List Token) :
    (bindings rule tokens).Gives fun bound => ∀ binding ∈ bound, binding.2.Spelled := by
  induction size : tokens.length using Nat.strongRecOn generalizing tokens with
  | _ size ih =>
    subst size
    rw [bindings.eq_def]
    intro spelled
    split
    · exact Gives.error _ spelled
    · next first rest shorter same =>
      obtain ⟨init, suffix⟩ := gives_binding reads tokens spelled _ _ same
      have tail : ∀ token ∈ rest, token.Spelled := fun token member => spelled token (suffix.subset member)
      split
      · exact Gives.error _ spelled
      · next after same' =>
        intro value left read
        cases read
        exact ⟨by simpa using init, (gives_bindingsContinue rest tail _ _ same').2.trans suffix⟩
      · next after less same' =>
        have suffix' := (gives_bindingsContinue rest tail _ _ same').2
        have others := ih after.length (Nat.lt_trans less shorter) after rfl
        refine Gives.under (Gives.under ?_ suffix' less) suffix shorter spelled
        exact others.mapping fun bound each => List.forall_mem_cons.mpr ⟨init, each⟩

private theorem gives_bracketed (reads : rule.Reads) : Rule.Reads (bracketed rule) := fun tokens =>
  (reads tokens).andThen fun _ _ inner => (Token.gives_expect _ _ _).returning inner

private theorem gives_condTail (reads : rule.Reads) : Rule.Reads (condTail rule) := by
  intro tokens
  refine (reads tokens).andThen fun test rest tested => ?_
  refine (Token.gives_expect _ _ _).andThen fun _ rest _ => ?_
  refine (reads rest).andThen fun yes rest first => ?_
  refine (Token.gives_expect _ _ _).andThen fun _ rest _ => ?_
  exact (reads rest).mapping fun no second => .cond tested first second

private theorem gives_loopTail (reads : rule.Reads) (tokens : List Token) :
    (loopTail rule tokens).Gives fun tail => (∀ inner, tail.1 = some inner → inner.Spelled) ∧ tail.2.Spelled := by
  unfold loopTail
  split
  · refine .skipping fun _ => (reads _).andThen fun step rest stride => ?_
    refine (Token.gives_expect _ _ _).andThen fun _ rest _ => ?_
    refine (reads rest).mapping fun body inner => ⟨fun _ same => ?_, inner⟩
    cases same
    exact stride
  · refine (Token.gives_expect _ _ _).andThen fun _ rest _ => ?_
    exact (reads rest).mapping fun body inner => ⟨fun _ same => by contradiction, inner⟩

private theorem gives_loopHead (reads : rule.Reads) : Rule.Reads (loopHead rule) := by
  intro tokens
  refine (gives_binding reads tokens).andThen fun (name, start) rest first => ?_
  refine (Token.gives_expect _ _ _).andThen fun _ rest _ => ?_
  refine (reads rest).andThen fun stop rest last => ?_
  exact (gives_loopTail reads rest).mapping fun (step, body) ⟨stride, inner⟩ => .loop first last stride inner

private theorem gives_bindTail (reads : rule.Reads) : Rule.Reads (bindTail rule) := fun tokens =>
  (gives_bindings reads tokens).andThen fun _ rest each => (reads rest).mapping fun _ inner => .bind each inner

private theorem gives_primary (reads : rule.Reads) (room : Bool) : Rule.Reads (primary rule room) := by
  intro tokens
  unfold primary
  split
  · exact .one fun _ => .number _
  · refine .skipping fun named => .skipping fun _ => ?_
    exact (gives_arguments reads room _).mapping fun args each => .call named.unnumbered each
  · exact .one fun _ => .var _
  · exact .skipping fun _ => gives_bracketed reads _
  · exact .skipping fun _ => gives_condTail reads _
  · exact .skipping fun _ => gives_loopHead reads _
  · exact .skipping fun _ => gives_bindTail reads _
  · exact .error _

private theorem gives_expression (table : PrecedenceTable) (budget : Nat) :
    (expression table budget).Reads ∧ (operand table budget).Reads := by
  induction budget with
  | zero => exact ⟨fun _ => .error _, fun _ => .error _⟩
  | succ budget ih =>
    refine ⟨gives_chain table ih.2, fun tokens => ?_⟩
    rw [operand]
    dsimp only
    split
    · refine .skipping fun symbol => ?_
      exact (ih.2 _).mapping fun value inner => .unary symbol inner
    · exact gives_primary ih.1 _ _

private theorem gives_parse (table : PrecedenceTable) :
    Rule.Reads (parse table) :=
  (gives_expression table maxNesting).1

end Expr

namespace Prototype

open Token (gives_expect)

private theorem gives_paramNames (tokens : List Token) : (paramNames tokens).Gives fun _ => True := by
  induction tokens with
  | nil => exact .error _
  | cons token tokens ih =>
    cases token with
    | ident name => exact .skipping fun _ => ih.mapping fun _ _ => trivial
    | _ => exact (gives_expect _ _ _).returning trivial

private theorem gives_paramList (tokens : List Token) : (paramList tokens).Gives fun _ => True :=
  (gives_expect _ _ _).andThen fun _ rest _ => gives_paramNames rest

private theorem gives_symbol (tokens : List Token) : (symbol tokens).Gives fun _ => True := by
  unfold symbol
  split
  · exact .one fun _ => trivial
  · exact .one fun _ => trivial
  · exact .error _

/-- A head whose name goes with its kind. -/
inductive Draft.Named : Draft → Prop where
  | function {name : String} {precedence : Option Double} {params : List String} (spellable : Spellable name) :
      Named ⟨name, .function, precedence, params⟩
  | unary {op : Char} {precedence : Option Double} {params : List String} :
      Named ⟨unaryName op, .unary, precedence, params⟩
  | binary {op : Char} {precedence : Option Double} {params : List String} :
      Named ⟨binaryName op, .binary, precedence, params⟩

private theorem gives_binaryTail (op : Char) (tokens : List Token) : (binaryTail op tokens).Gives Draft.Named := by
  unfold binaryTail
  split
  · exact .skipping fun _ => (gives_paramList _).mapping fun _ _ => .binary
  · exact (gives_paramList _).mapping fun _ _ => .binary

private theorem gives_draft (tokens : List Token) : (draft tokens).Gives Draft.Named := by
  unfold draft
  split
  · exact .skipping fun spellable => (gives_paramList _).mapping fun _ _ => .function spellable
  · refine .skipping fun _ => (gives_symbol _).andThen fun op rest _ => ?_
    exact (gives_paramList rest).mapping fun _ _ => .unary
  · exact .skipping fun _ => (gives_symbol _).andThen fun op rest _ => gives_binaryTail op rest
  · exact .error _

/-- A head with a name that is no number. -/
theorem Spelled.ofNamed {proto : Prototype} (named : proto.isAnonymous = false) (unnumbered : ¬ Numbered proto.name)
    (operands : OperandCount proto.name proto.params.length) : proto.Spelled ∧ proto.isAnonymous = false :=
  ⟨⟨fun _ => unnumbered, operands, fun anonymous => by rw [named] at anonymous; contradiction⟩, named⟩

/-- Checking a head makes sure of its number of parameters. -/
theorem Draft.Named.check {draft : Draft} (named : draft.Named) {proto : Prototype}
    (checked : draft.check = .ok proto) : proto.Spelled ∧ proto.isAnonymous = false := by
  unfold Draft.check at checked
  split at checked
  · contradiction
  · cases named with
    | function spellable =>
      cases checked
      exact Spelled.ofNamed spellable.notEmpty spellable.unnumbered (spellable.operandCount _)
    | @unary op _ params =>
      simp only [PrototypeKind.operands?] at checked
      split at checked
      · next count =>
        cases checked
        exact Spelled.ofNamed (by simp [isAnonymous, unaryName]) (unnumbered_unaryName op)
          (count ▸ operandCount_unary op)
      · contradiction
    | @binary op _ params =>
      simp only [PrototypeKind.operands?] at checked
      split at checked
      · next count =>
        cases checked
        exact Spelled.ofNamed (by simp [isAnonymous, binaryName]) (unnumbered_binaryName op)
          (count ▸ operandCount_binary op)
      · contradiction

private theorem gives_parse (tokens : List Token) :
    (parse tokens).Gives fun proto => proto.Spelled ∧ proto.isAnonymous = false := by
  intro spelled proto rest read
  unfold parse at read
  split at read
  · contradiction
  · next written left same =>
    obtain ⟨named, suffix⟩ := gives_draft tokens spelled _ _ same
    split at read
    · contradiction
    · next checked =>
      cases read
      exact ⟨named.check checked, suffix⟩

private theorem spelled_anonymous : anonymous.Spelled :=
  ⟨fun named => by contradiction, Numbered.operandCount (fun c member => by simp [anonymous, function] at member) _,
    fun _ => rfl⟩

end Prototype

namespace Form

private theorem gives_parseDefinition (table : PrecedenceTable) (tokens : List Token) :
    (parseDefinition table tokens).1.Gives Form.Spelled := by
  unfold parseDefinition
  split
  · exact .error _
  · next proto rest shorter same =>
    intro spelled
    obtain ⟨head, suffix⟩ := Prototype.gives_parse tokens spelled _ _ same
    have body : ((Expr.parse (proto.declareIn table) rest).mapping (definition proto)).Gives Form.Spelled :=
      (Expr.gives_parse _ rest).mapping fun _ inner => ⟨head.1, inner⟩
    exact body.under suffix shorter spelled

private theorem gives_parseDeclaration (table : PrecedenceTable) (tokens : List Token) :
    (parseDeclaration table tokens).1.Gives Form.Spelled := by
  unfold parseDeclaration
  split
  · exact .error _
  · next proto rest same =>
    intro spelled form left read
    cases read
    exact Prototype.gives_parse tokens spelled _ _ same

private theorem gives_parse (table : PrecedenceTable) (tokens : List Token) :
    (parse table tokens).1.Gives Form.Spelled := by
  unfold parse
  split
  · exact .skipping fun _ => gives_parseDefinition table _
  · exact .skipping fun _ => gives_parseDeclaration table _
  · exact (Expr.gives_parse table _).mapping fun _ inner => ⟨Prototype.spelled_anonymous, inner⟩

/-- Every form read from text can come from text, and so can what is left of its tokens. -/
theorem spelled_next? {table : PrecedenceTable} {source : String} {tokens : List Token} {item : Item}
    (part : tokens <:+ Token.significant source) (found : next? table tokens = some item) :
    (∀ form, item.form = .ok form → form.Spelled) ∧ item.rest <:+ tokens := by
  have spelled : ∀ token ∈ tokens, token.Spelled := fun token member =>
    Token.spelled_significant source token (part.subset member)
  have dropped : tokens.dropWhile (· = .mark .semicolon) <:+ tokens := List.dropWhile_suffix _
  unfold next? at found
  split at found
  · contradiction
  · next first more same =>
    rw [same] at dropped
    split at found
    · next form rest shorter table read =>
      cases found
      have gives := gives_parse _ _ (fun token member => spelled token (dropped.subset member)) form ⟨rest, shorter⟩
        (congrArg Prod.fst read)
      refine ⟨fun _ same => ?_, gives.2.trans dropped⟩
      cases same
      exact gives.1
    · cases found
      refine ⟨fun _ same => by contradiction, ?_⟩
      exact ((List.dropWhile_suffix _).trans (List.suffix_cons _ _)).trans dropped

/-- What handling one form after the other preserves. -/
theorem fold_preserves {σ : Type} (handle : σ → PrecedenceTable → Except SyntaxError Form → σ × PrecedenceTable)
    (kept : σ → PrecedenceTable → Prop) {source : String}
    (step : ∀ state table tokens item, tokens <:+ Token.significant source → kept state table →
      next? table tokens = some item →
      kept (handle state item.table item.form).1 (handle state item.table item.form).2)
    {state : σ} {table : PrecedenceTable} {tokens : List Token} (part : tokens <:+ Token.significant source)
    (holds : kept state table) :
    kept (fold handle state table tokens).1 (fold handle state table tokens).2 := by
  rw [fold.eq_def]
  split
  · exact holds
  · next item found =>
    have shorter := next?_shorter found
    have rest := (spelled_next? part found).2
    exact fold_preserves handle kept step (rest.trans part) (step state table tokens item part holds found)
termination_by tokens.length

end Form

end Kaleidoscope
