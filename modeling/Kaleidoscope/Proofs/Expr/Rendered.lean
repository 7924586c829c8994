import Kaleidoscope.Proofs.Expr.Completeness
import Kaleidoscope.Proofs.Token.Written

/-!
What is written for an expression is derived by the grammar as that expression: every operator, condition, loop and
binding stands in brackets, so that it is an operand whatever surrounds it.
-/

namespace Kaleidoscope

open Grammar

/-- The operator joins operands. -/
def PrecedenceTable.Joins (table : PrecedenceTable) (op : Char) : Prop :=
  ∃ precedence, table.get? op = some precedence ∧ 0 ≤ precedence

namespace Expr

/-- An expression that can be written: its names, symbols and numbers are tokens, and `joins` holds of its binary
operators. -/
inductive Writable (joins : Char → Prop) : Expr → Prop where
  | number {value : Double} (finite : value.isFinite = true) (unsigned : value.negative = false) :
      Writable joins (.number value)
  | var {name : String} (named : (Token.ident name).WrittenAs name) : Writable joins (.var name)
  | binary {op : Char} {lhs rhs : Expr}
      (symbol : (Token.operator op).WrittenAs op.toString ∨ (Token.other op).WrittenAs op.toString) (joined : joins op)
      (left : Writable joins lhs) (right : Writable joins rhs) : Writable joins (.binary op lhs rhs)
  | unary {op : Char} {operand : Expr} (symbol : (Token.other op).WrittenAs op.toString)
      (inner : Writable joins operand) : Writable joins (.unary op operand)
  | cond {test yes no : Expr} (tested : Writable joins test) (taken : Writable joins yes)
      (otherwise : Writable joins no) : Writable joins (.cond test yes no)
  | loop {name : String} {start stop body : Expr} {step : Option Expr} (named : (Token.ident name).WrittenAs name)
      (first : Writable joins start) (last : Writable joins stop) (stride : ∀ inner ∈ step, Writable joins inner)
      (inner : Writable joins body) : Writable joins (.loop name start stop step body)
  | call {callee : String} {args : List Expr} (named : (Token.ident callee).WrittenAs callee)
      (each : ∀ arg ∈ args, Writable joins arg) : Writable joins (.call callee args)
  | bind {bindings : List (String × Expr)} {body : Expr} (nonempty : bindings ≠ [])
      (named : ∀ binding ∈ bindings, (Token.ident binding.1).WrittenAs binding.1)
      (each : ∀ binding ∈ bindings, Writable joins binding.2) (inner : Writable joins body) :
      Writable joins (.bind bindings body)

mutual

/-- How deep the written form nests, as an operand. -/
def nesting : Expr → Nat
  | number _ => 1
  | var _ => 1
  | binary _ lhs rhs => max lhs.nesting rhs.nesting + 2
  | unary _ operand => operand.nesting + 1
  | cond test yes no => max (test.nesting + 1) (max (yes.nesting + 1) (no.nesting + 1)) + 3
  | loop _ start stop step body =>
    max (start.nesting + 1) (max (stop.nesting + 1) (max (nestingStep step) (body.nesting + 1))) + 3
  | call _ args => nestingArgs args + 1
  | declaration _ => 0
  | definition _ _ => 0
  | bind bindings body => max (nestingBindings bindings) (body.nesting + 1) + 3

def nestingStep : Option Expr → Nat
  | none => 0
  | some step => step.nesting + 1

/-- No arguments nest like a single one. -/
def nestingArgs : List Expr → Nat
  | [] => 2
  | arg :: args => max (arg.nesting + 1) (nestingArgs args)

def nestingBindings : List (String × Expr) → Nat
  | [] => 0
  | (_, init) :: bindings => max (init.nesting + 1) (nestingBindings bindings)

end

end Expr

namespace Grammar.Derives

variable {table : PrecedenceTable} {phrase : Phrase} {n : Nat} {isOpen : Bool} {value : Expr} {tokens : List Token}
  {text : List Char}

theorem alone (inner : Derives table (.operand isOpen value) n tokens) :
    Derives table (.expression value) (n + 1) tokens :=
  .expression (.last inner)

private theorem inBrackets (inner : Derives table (.primary isOpen value) n tokens) :
    Derives table (.operand false value) (n + 3) (.mark .openParen :: (tokens ++ [.mark .closeParen])) :=
  .primary (.bracketed (alone (.primary inner)))

theorem scan_append (derives : Derives table phrase n (Token.scan text)) {c : Char} (cuts : Token.Cuts c)
    (rest : List Char) : Token.scan (text ++ c :: rest) = Token.scan text ++ Token.scan (c :: rest) :=
  Token.scan_append cuts (.inr fun token member => (derives.inside token member).2) rest

theorem scan_blank (derives : Derives table phrase n (Token.scan text)) (rest : List Char) :
    Token.scan (text ++ ' ' :: rest) = Token.scan text ++ Token.scan rest := by
  rw [derives.scan_append ⟨rfl, rfl⟩, Token.scan_blank]

private theorem scan_comma (derives : Derives table phrase n (Token.scan text)) (rest : List Char) :
    Token.scan (text ++ ',' :: ' ' :: rest) = Token.scan text ++ .mark .comma :: Token.scan rest := by
  rw [derives.scan_append ⟨rfl, rfl⟩]
  exact congrArg _ ((Token.scan_mark .comma _).trans (congrArg _ (Token.scan_blank rest)))

private theorem scan_close (derives : Derives table phrase n (Token.scan text)) :
    Token.scan (text ++ [')']) = Token.scan text ++ [.mark .closeParen] := by
  rw [derives.scan_append ⟨rfl, rfl⟩, Token.scan_closeParen]

end Grammar.Derives

open Token

namespace Expr

variable {table : PrecedenceTable}

/-- The written form of `e` is that of an operand. -/
def Rendered (table : PrecedenceTable) (e : Expr) : Prop :=
  Derives table (.operand false e) e.nesting (scan e.render.toList)

private theorem rendered_number {value : Double} (finite : value.isFinite = true) (unsigned : value.negative = false) :
    Rendered table (.number value) := by
  unfold Rendered
  rw [render, (writtenAs_number (value.writes_text finite unsigned)).scan]
  exact .primary (.number value)

private theorem rendered_var {name : String} (named : (ident name).WrittenAs name) : Rendered table (.var name) := by
  unfold Rendered
  rw [render, named.scan]
  exact .primary (.var name)

private theorem rendered_binary {op : Char} {lhs rhs : Expr}
    (symbol : (operator op).WrittenAs op.toString ∨ (other op).WrittenAs op.toString) (joins : table.Joins op)
    (left : Rendered table lhs) (right : Rendered table rhs) : Rendered table (.binary op lhs rhs) := by
  have text : (render (.binary op lhs rhs)).toList =
      '(' :: (lhs.render.toList ++ ' ' :: op :: ' ' :: (rhs.render.toList ++ [')'])) := by
    simp [render]
  obtain ⟨token, written, names⟩ : ∃ token : Token, token.WrittenAs op.toString ∧ token.operatorSymbol? = some op := by
    rcases symbol with written | written
    · exact ⟨_, written, rfl⟩
    · exact ⟨_, written, rfl⟩
  obtain ⟨precedence, known, nonnegative⟩ := joins
  have tokens : scan (render (.binary op lhs rhs)).toList =
      .mark .openParen :: ((scan lhs.render.toList ++ token :: scan rhs.render.toList) ++ [.mark .closeParen]) := by
    rw [text, scan_openParen, left.scan_blank, written.scan_cons names, scan_blank, right.scan_close]
    simp
  unfold Rendered
  rw [tokens]
  exact .primary (.bracketed (.expression (.link left names known nonnegative (.last right))))

private theorem rendered_unary {op : Char} {operand : Expr} (symbol : (other op).WrittenAs op.toString)
    (inner : Rendered table operand) : Rendered table (.unary op operand) := by
  have text : (render (.unary op operand)).toList = op :: operand.render.toList := by simp [render]
  unfold Rendered
  rw [text, symbol.scan_cons rfl]
  exact .unary op inner

private theorem rendered_cond {test yes no : Expr} (tested : Rendered table test) (taken : Rendered table yes)
    (otherwise : Rendered table no) : Rendered table (.cond test yes no) := by
  have text : (render (.cond test yes no)).toList =
      '(' :: (Keyword.condition.text.toList ++ ' ' :: (test.render.toList ++ ' ' ::
        (Keyword.consequent.text.toList ++ ' ' :: (yes.render.toList ++ ' ' ::
          (Keyword.alternative.text.toList ++ ' ' :: (no.render.toList ++ [')'])))))) := by
    simp [render, Keyword.text]
  unfold Rendered
  rw [text, scan_openParen, scan_keyword, tested.scan_blank, scan_keyword, taken.scan_blank, scan_keyword,
    otherwise.scan_close, nesting]
  have whole := (Derives.cond tested.alone taken.alone otherwise.alone).inBrackets
  simpa only [List.cons_append, List.append_assoc] using whole

private theorem rendered_loop {name : String} {start stop body : Expr} {step : Option Expr}
    (named : (ident name).WrittenAs name) (first : Rendered table start) (last : Rendered table stop)
    (stride : ∀ inner ∈ step, Rendered table inner) (inner : Rendered table body) :
    Rendered table (.loop name start stop step body) := by
  have text : (render (.loop name start stop step body)).toList =
      '(' :: (Keyword.loop.text.toList ++ ' ' :: (name.toList ++ ' ' :: '=' :: ' ' :: (start.render.toList ++
        ',' :: ' ' :: (stop.render.toList ++ (renderStep step).toList ++ ' ' ::
          (Keyword.within.text.toList ++ ' ' :: (body.render.toList ++ [')'])))))) := by
    simp [render, Keyword.text]
  unfold Rendered
  rw [text, scan_openParen, scan_keyword, scan_name named, scan_equals, first.scan_comma, nesting]
  cases step with
  | none =>
    have empty : (renderStep none).toList = [] := by simp [renderStep]
    rw [empty, List.append_nil, last.scan_blank, scan_keyword, inner.scan_close, nestingStep, Nat.zero_max]
    have whole := (Derives.loop name first.alone last.alone inner.alone).inBrackets
    simpa only [List.cons_append, List.append_assoc] using whole
  | some step =>
    have stepped : Rendered table step := stride step rfl
    have more : (renderStep (some step)).toList = ',' :: ' ' :: step.render.toList := by simp [renderStep]
    rw [more, List.append_assoc, List.cons_append, List.cons_append, last.scan_comma, stepped.scan_blank, scan_keyword,
      inner.scan_close, nestingStep]
    have whole := (Derives.stepLoop name first.alone last.alone stepped.alone inner.alone).inBrackets
    simpa only [List.cons_append, List.append_assoc] using whole

private theorem nesting_pos {joins : Char → Prop} {e : Expr} (writable : e.Writable joins) : 0 < e.nesting := by
  cases writable <;> simp [nesting]

private theorem derives_arguments {args : List Expr} (nonempty : args ≠ []) (deep : ∀ arg ∈ args, 0 < arg.nesting)
    (each : ∀ arg ∈ args, Rendered table arg) :
    Derives table (.arguments args) (nestingArgs args) (scan (", ".intercalate (renderArgs args)).toList) := by
  induction args with
  | nil => contradiction
  | cons arg args ih =>
    obtain ⟨first, others⟩ := List.forall_mem_cons.mp each
    obtain ⟨positive, deep⟩ := List.forall_mem_cons.mp deep
    cases args with
    | nil =>
      have single : nestingArgs [arg] = arg.nesting + 1 := by
        simp only [nestingArgs]
        omega
      rw [renderArgs, renderArgs, String.intercalate_singleton, single]
      exact .oneArgument first.alone
    | cons next args =>
      have text : (", ".intercalate (renderArgs (arg :: next :: args))).toList =
          arg.render.toList ++ ',' :: ' ' :: (", ".intercalate (renderArgs (next :: args))).toList := by
        simp [renderArgs, String.intercalate_cons_cons]
      rw [text, first.scan_comma, nestingArgs]
      exact .moreArguments first.alone (ih (List.cons_ne_nil _ _) deep others)

private theorem rendered_call {callee : String} {args : List Expr} (named : (ident callee).WrittenAs callee)
    (deep : ∀ arg ∈ args, 0 < arg.nesting) (each : ∀ arg ∈ args, Rendered table arg) :
    Rendered table (.call callee args) := by
  have text : (render (.call callee args)).toList =
      callee.toList ++ '(' :: ((", ".intercalate (renderArgs args)).toList ++ [')']) := by
    simp [render]
  unfold Rendered
  rw [text, named.scan_append rfl ⟨rfl, rfl⟩, scan_openParen, nesting]
  by_cases empty : args = []
  · subst empty
    rw [renderArgs, String.intercalate_nil, String.toList_empty, List.nil_append, scan_closeParen]
    exact .primary (.callNone callee)
  · have inner := derives_arguments empty deep each
    rw [inner.scan_close]
    exact .primary (.call callee inner)

private theorem derives_bindings {bound : List (String × Expr)} (nonempty : bound ≠ [])
    (named : ∀ binding ∈ bound, (ident binding.1).WrittenAs binding.1)
    (each : ∀ binding ∈ bound, Rendered table binding.2) :
    Derives table (.bindings bound) (nestingBindings bound)
      (scan (", ".intercalate (renderBindings bound)).toList) := by
  induction bound with
  | nil => contradiction
  | cons binding bound ih =>
    obtain ⟨name, init⟩ := binding
    obtain ⟨written, named⟩ := List.forall_mem_cons.mp named
    obtain ⟨first, others⟩ := List.forall_mem_cons.mp each
    cases bound with
    | nil =>
      have text : (", ".intercalate (renderBindings [(name, init)])).toList =
          name.toList ++ ' ' :: '=' :: ' ' :: init.render.toList := by
        simp [renderBindings]
      rw [text, scan_name written, scan_equals, nestingBindings, nestingBindings, Nat.max_zero]
      exact .oneBinding name first.alone
    | cons next bound =>
      have text : (", ".intercalate (renderBindings ((name, init) :: next :: bound))).toList =
          name.toList ++ ' ' :: '=' :: ' ' :: (init.render.toList ++
            ',' :: ' ' :: (", ".intercalate (renderBindings (next :: bound))).toList) := by
        simp [renderBindings, String.intercalate_cons_cons]
      rw [text, scan_name written, scan_equals, first.scan_comma, nestingBindings]
      exact .moreBindings name first.alone (ih (List.cons_ne_nil _ _) named others)

private theorem rendered_bind {bindings : List (String × Expr)} {body : Expr} (nonempty : bindings ≠ [])
    (named : ∀ binding ∈ bindings, (ident binding.1).WrittenAs binding.1)
    (each : ∀ binding ∈ bindings, Rendered table binding.2) (inner : Rendered table body) :
    Rendered table (.bind bindings body) := by
  have text : (render (.bind bindings body)).toList =
      '(' :: (Keyword.variable.text.toList ++ ' ' :: ((", ".intercalate (renderBindings bindings)).toList ++ ' ' ::
        (Keyword.within.text.toList ++ ' ' :: (body.render.toList ++ [')'])))) := by
    simp [render, Keyword.text]
  have outer := derives_bindings nonempty named each
  unfold Rendered
  rw [text, scan_openParen, scan_keyword, outer.scan_blank, scan_keyword, inner.scan_close, nesting]
  have whole := (Derives.bind outer inner.alone).inBrackets
  simpa only [List.cons_append, List.append_assoc] using whole

/-- The written form of an expression stands for that expression. -/
theorem Writable.rendered {joins : Char → Prop} (known : ∀ op, joins op → table.Joins op) {e : Expr}
    (writable : e.Writable joins) : Rendered table e := by
  induction writable with
  | number finite unsigned => exact rendered_number finite unsigned
  | var named => exact rendered_var named
  | binary symbol joined _ _ left right => exact rendered_binary symbol (known _ joined) left right
  | unary symbol _ inner => exact rendered_unary symbol inner
  | cond _ _ _ tested taken otherwise => exact rendered_cond tested taken otherwise
  | loop named _ _ _ _ first last stride inner => exact rendered_loop named first last stride inner
  | call named args each => exact rendered_call named (fun arg member => nesting_pos (args arg member)) each
  | bind nonempty named _ _ each inner => exact rendered_bind nonempty named each inner

end Expr

end Kaleidoscope
