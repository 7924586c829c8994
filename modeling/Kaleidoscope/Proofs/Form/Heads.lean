import Kaleidoscope.Form.Parse
import Kaleidoscope.Proofs.Reading

/-!
The grammar of heads, said without reading them, and what checking them makes sure of. A head is read from exactly the
tokens that spell it.
-/

namespace Kaleidoscope

open Reading Reading.Result

namespace Prototype

/-- Parameters in brackets. -/
def paramTokens (params : List String) : List Token :=
  .mark .openParen :: (params.map .ident ++ [.mark .closeParen])

/-- The tokens spell the head. -/
inductive Draft.SpelledBy : Draft → List Token → Prop where
  | function (name : String) (params : List String) :
      SpelledBy ⟨name, .function, none, params⟩ (.ident name :: paramTokens params)
  | unary {token : Token} {op : Char} (names : token.operatorSymbol? = some op) (params : List String) :
      SpelledBy ⟨unaryName op, .unary, none, params⟩ (.keyword .unary :: token :: paramTokens params)
  | binary {token : Token} {op : Char} (names : token.operatorSymbol? = some op) (params : List String) :
      SpelledBy ⟨binaryName op, .binary, none, params⟩ (.keyword .binary :: token :: paramTokens params)
  | precedence {token : Token} {op : Char} (names : token.operatorSymbol? = some op) (value : Double)
      (params : List String) :
      SpelledBy ⟨binaryName op, .binary, some value, params⟩
        (.keyword .binary :: token :: .number value :: paramTokens params)

/-! What is read has been spelled. -/

private theorem takes_paramNames (tokens : List Token) :
    (paramNames tokens).result.Takes tokens fun names used _ => used = names.map .ident ++ [.mark .closeParen] := by
  induction tokens with
  | nil => exact .error _
  | cons token tokens ih =>
    have ends : ((Token.expect (.mark .closeParen) [.identifier] (token :: tokens)).result.mapping
        fun _ => ([] : List String)).Takes (token :: tokens) fun names used _ =>
          used = names.map .ident ++ [.mark .closeParen] :=
      .mapping (Token.takes_expect _ _ _)
    cases token with
    | ident name =>
      simp only [paramNames, result_skipping, result_mapping]
      refine .skipping (.mapping (ih.mono fun names used _ same => ?_))
      rw [same]
      rfl
    | _ =>
      simp only [paramNames, result_returning]
      exact ends

private theorem takes_paramList (tokens : List Token) :
    (paramList tokens).result.Takes tokens fun names used _ => used = paramTokens names := by
  simp only [paramList, result_andThen]
  refine (Token.takes_expect _ _ tokens).andThen fun _ used rest _ same => ?_
  subst same
  exact (takes_paramNames rest).mono fun names used _ same => congrArg _ same

private theorem takes_symbol (tokens : List Token) :
    (symbol tokens).result.Takes tokens fun op used _ => ∃ token, used = [token] ∧ token.operatorSymbol? = some op := by
  unfold symbol
  split
  · exact .one ⟨_, rfl, rfl⟩
  · exact .one ⟨_, rfl, rfl⟩
  · exact .error _

private theorem takes_binaryTail (op : Char) (tokens : List Token) :
    (binaryTail op tokens).result.Takes tokens fun draft used _ =>
      (∃ params, draft = ⟨binaryName op, .binary, none, params⟩ ∧ used = paramTokens params) ∨
        ∃ value params, draft = ⟨binaryName op, .binary, some value, params⟩ ∧
          used = .number value :: paramTokens params := by
  unfold binaryTail
  split
  · next value rest =>
    rw [result_skipping, result_mapping]
    exact .skipping (.mapping ((takes_paramList rest).mono fun params used _ same =>
      .inr ⟨value, params, rfl, congrArg _ same⟩))
  · rw [result_mapping]
    exact .mapping ((takes_paramList tokens).mono fun params used _ same => .inl ⟨params, rfl, same⟩)

theorem takes_draft (tokens : List Token) :
    (draft tokens).result.Takes tokens fun written used _ => written.SpelledBy used := by
  unfold draft
  split
  · next name rest =>
    rw [result_skipping, result_mapping]
    refine .skipping (.mapping ((takes_paramList rest).mono fun params used _ same => ?_))
    subst same
    exact .function name params
  · next rest =>
    simp only [result_skipping, result_andThen, result_mapping]
    refine .skipping ((takes_symbol rest).andThen fun op used rest _ ⟨token, same, names⟩ => ?_)
    subst same
    refine .mapping ((takes_paramList rest).mono fun params used _ same => ?_)
    subst same
    exact .unary names params
  · next rest =>
    simp only [result_skipping, result_andThen]
    refine .skipping ((takes_symbol rest).andThen fun op used rest _ ⟨token, same, names⟩ => ?_)
    subst same
    refine (takes_binaryTail op rest).mono fun draft used _ spelled => ?_
    rcases spelled with ⟨params, rfl, rfl⟩ | ⟨value, params, rfl, rfl⟩
    · exact .binary names params
    · exact .precedence names value params
  · exact .error _

/-! What is spelled is read. -/

private theorem result_paramNames (names : List String) (rest : List Token) :
    (paramNames (names.map .ident ++ .mark .closeParen :: rest)).result = .ok (names, rest) := by
  induction names with
  | nil =>
    show (paramNames (.mark .closeParen :: rest)).result = _
    simp [paramNames]
  | cons name names ih =>
    show (paramNames (.ident name :: (names.map .ident ++ .mark .closeParen :: rest))).result = _
    simp [paramNames, ih]

private theorem result_paramList (names : List String) (rest : List Token) :
    (paramList (paramTokens names ++ rest)).result = .ok (names, rest) := by
  simp [paramList, paramTokens, result_paramNames]

private theorem result_symbol {token : Token} {op : Char} (names : token.operatorSymbol? = some op)
    (rest : List Token) : (symbol (token :: rest)).result = .ok (op, rest) := by
  cases token <;> cases names <;> rfl

private theorem result_binaryTail (op : Char) (names : List String) (rest : List Token) :
    (binaryTail op (paramTokens names ++ rest)).result = .ok (⟨binaryName op, .binary, none, names⟩, rest) := by
  have unstated : (binaryTail op (paramTokens names ++ rest)).result =
      (paramList (paramTokens names ++ rest)).result.mapping fun names => ⟨binaryName op, .binary, none, names⟩ :=
    result_mapping _ _
  rw [unstated, result_paramList, mapping_ok]

theorem result_draft {written : Draft} {used : List Token} (spelled : written.SpelledBy used) (rest : List Token) :
    (draft (used ++ rest)).result = .ok (written, rest) := by
  cases spelled with
  | function name params => simp [draft, result_paramList]
  | unary names params => simp [draft, result_symbol names, result_paramList]
  | binary names params => simp [draft, result_symbol names, result_binaryTail]
  | precedence names value params => simp [draft, result_symbol names, binaryTail, result_paramList]

/-! What checking makes sure of. -/

/-- A head that passes is the draft with its precedence, and an operator has the parameters it needs. -/
theorem Draft.check_cases {draft : Draft} {proto : Prototype} (checked : draft.check = .ok proto) :
    ∃ precedence, draft.checkPrecedence = .ok precedence ∧
      proto = ⟨draft.name, draft.params, draft.kind, precedence⟩ ∧
      ∀ count ∈ draft.kind.operands?, draft.params.length = count := by
  unfold check at checked
  split at checked
  · contradiction
  · next precedence valid =>
    refine ⟨precedence, valid, ?_⟩
    split at checked
    · next any =>
      cases checked
      exact ⟨rfl, by simp [any]⟩
    · next expected fixed =>
      split at checked
      · next enough =>
        cases checked
        refine ⟨rfl, fun count member => ?_⟩
        cases fixed.symm.trans member
        exact enough
      · contradiction

theorem Draft.range_checkPrecedence {draft : Draft} {precedence : Int}
    (valid : draft.checkPrecedence = .ok precedence) : 1 ≤ precedence ∧ precedence ≤ 100 := by
  unfold checkPrecedence at valid
  split at valid
  · cases valid
    decide
  · split at valid
    · contradiction
    · split at valid
      · cases valid
        omega
      · contradiction

theorem range_parse {proto : Prototype} {tokens : List Token}
    {rest : { rest : List Token // rest.length < tokens.length }} (read : parse tokens = .ok (proto, rest)) :
    1 ≤ proto.precedence ∧ proto.precedence ≤ 100 := by
  unfold parse at read
  split at read
  · contradiction
  · split at read
    · contradiction
    · next checked =>
      cases read
      obtain ⟨precedence, valid, rfl, _⟩ := Draft.check_cases checked
      exact Draft.range_checkPrecedence valid

end Prototype

end Kaleidoscope
