import Kaleidoscope.Proofs.Lowering.Verdict
import Kaleidoscope.Proofs.Session.Faults
import Kaleidoscope.Proofs.Session.Precedence
import Kaleidoscope.Proofs.Session.Registry

/-!
The operators that can be read are the operators that can be lowered. Between forms each operator with a precedence is
built in or has a prototype with two parameters, and an operator that has no precedence is turned down while reading.
-/

namespace Kaleidoscope

open Kaleidoscope.Flow

private theorem Prototype.get?_declareIn (proto : Prototype) (table : PrecedenceTable) (symbol : Char) :
    (proto.declareIn table).get? symbol =
      if proto.binarySymbol? = some symbol then some proto.precedence else table.get? symbol := by
  unfold declareIn
  cases proto.binarySymbol? with
  | none => rfl
  | some op =>
    rw [PrecedenceTable.get?_declare]
    simp only [Option.some.injEq, eq_comm]

private theorem Prototype.contains_declareIn {proto : Prototype} {table : PrecedenceTable} {symbol : Char}
    (known : (proto.declareIn table).contains symbol = true) :
    proto.binarySymbol? = some symbol ∨ table.contains symbol = true := by
  rw [PrecedenceTable.contains, get?_declareIn] at known
  split at known
  · next own => exact .inl own
  · exact .inr known

/-- A binary operator that can be written is a symbol and gives the function its name. -/
theorem Prototype.Writable.of_binarySymbol? {proto : Prototype} (writable : proto.Writable) {op : Char}
    (own : proto.binarySymbol? = some op) :
    proto.name = binaryName op ∧ Token.isWordPart op = false := by
  cases writable with
  | function named each => contradiction
  | unary names symbol named => contradiction
  | @binary token symbol precedence lhs rhs names written range left right =>
    have last : (binaryName symbol).toList.getLast? = some op := own
    rw [toList_binaryName, List.getLast?_concat] at last
    cases last
    exact ⟨rfl, (written.isSymbol names).1.word⟩

namespace Form

variable {table wider : PrecedenceTable} {tokens : List Token} {form : Form} {op : Char}

/-- A form that has been read uses operators that have a precedence, its own included. -/
theorem ReadUnder.contains_operators (read : form.ReadUnder table tokens) :
    ∀ op ∈ form.operators, (form.proto.declareIn table).contains op = true := by
  cases read with
  | declaration part head => exact List.forall_mem_nil _
  | definition part head read => exact Expr.contains_operators_parse read
  | bare part read => exact Expr.contains_operators_parse read

section

variable (missing : table.get? op = none) (others : ∀ symbol, symbol ≠ op → table.get? symbol = wider.get? symbol)
  (uses : op ∈ form.operators) (foreign : form.proto.binarySymbol? ≠ some op)

include missing others uses foreign

private theorem result_parse_lacking {first : Token} {rest left : List Token}
    (read : (result (parse wider (first :: rest))).1 = .ok (form, left)) :
    (result (parse table (first :: rest))).1 = .error (.unknownBinaryOperator op) := by
  by_cases defines : first = .keyword .definition
  · subst defines
    rw [result_parse_definition, result_parseDefinition] at read ⊢
    rcases head : (Prototype.parse rest).result with reason | ⟨proto, inner⟩
    · simp [head] at read
    · simp only [head, bodyResult] at read ⊢
      rcases body : (Expr.parse (proto.declareIn wider) inner).result with reason | ⟨value, after⟩
      · simp [body] at read
      · simp only [body] at read
        cases read
        have missing' : (proto.declareIn table).get? op = none := by
          rw [Prototype.get?_declareIn, missing]
          exact if_neg foreign
        have others' : ∀ symbol, symbol ≠ op →
            (proto.declareIn table).get? symbol = (proto.declareIn wider).get? symbol := by
          intro symbol other
          rw [Prototype.get?_declareIn, Prototype.get?_declareIn, others symbol other]
        rw [Expr.parse_lacking missing' others' body uses]
  · by_cases declares : first = .keyword .external
    · subst declares
      rw [result_parse_declaration, result_parseDeclaration] at read
      rcases head : (Prototype.parse rest).result with reason | ⟨proto, after⟩
      · simp [head] at read
      · simp only [head] at read
        cases read
        contradiction
    · rw [result_parse_expression defines declares] at read ⊢
      rcases body : (Expr.parse wider (first :: rest)).result with reason | ⟨value, after⟩
      · simp [body] at read
      · simp only [body, Reading.Result.mapping_ok] at read
        cases read
        rw [Expr.parse_lacking missing others body uses]
        rfl

/-- What could be read with one more operator and makes use of it is turned down without it. -/
theorem next?_lacking {item : Item} (found : next? wider tokens = some item) (read : item.form = .ok form) :
    ∃ turned, next? table tokens = some turned ∧ turned.form = .error (.unknownBinaryOperator op) := by
  rw [next?_eq] at found ⊢
  split at found
  · contradiction
  · next first rest begins =>
    cases found
    refine ⟨_, rfl, ?_⟩
    rw [form_item] at read ⊢
    cases parsed : (result (parse wider (first :: rest))).1 with
    | error reason =>
      rw [parsed] at read
      contradiction
    | ok whole =>
      rw [parsed] at read
      cases read
      rw [result_parse_lacking missing others uses foreign parsed]
      rfl

end

/-- The operator that a form establishes is its own, and the form has been lowered. -/
theorem established?_eq_some {context : Context} {precedence : Int}
    (established : established? context (.ok form) = some (op, precedence)) :
    ∃ id, (form.lowering context).1 = .ok id ∧ form.proto.binarySymbol? = some op := by
  unfold established? Prototype.operator? at established
  dsimp only at established
  split at established
  · next id done =>
    obtain ⟨symbol, own, same⟩ := Option.map_eq_some_iff.mp established
    cases same
    exact ⟨id, done, own⟩
  · contradiction

end Form

namespace PrecedenceTable

private theorem mem_builtIn_of_standard {symbol : Char} (known : standard.contains symbol = true) :
    symbol ∈ Expr.builtIn := by
  obtain ⟨precedence, found⟩ := Option.isSome_iff_exists.mp known
  have entry := mem_entries_of_get? found
  simp only [standard, List.mem_cons, Prod.mk.injEq, List.not_mem_nil, or_false] at entry
  rcases entry with ⟨rfl, _⟩ | ⟨rfl, _⟩ | ⟨rfl, _⟩ | ⟨rfl, _⟩ | ⟨rfl, _⟩ <;> decide

private theorem contains_setting {table : PrecedenceTable} {change : Option (Char × Int)} {symbol : Char}
    (known : (table.setting change).contains symbol = true) :
    (∃ precedence, change = some (symbol, precedence)) ∨ table.contains symbol = true := by
  cases change with
  | none => exact .inr known
  | some entry =>
    obtain ⟨op, precedence⟩ := entry
    rw [contains, setting, get?_set] at known
    split at known
    · next same => exact .inl ⟨precedence, by rw [same]⟩
    · exact .inr known

end PrecedenceTable

namespace Context

variable {c : Context} {form : Form} {name : String}

/-- Prototypes are replaced and never forgotten. -/
theorem prototype?_registering_ne_none (proto : Prototype) (known : c.prototype? name ≠ none) :
    (c.registering proto).prototype? name ≠ none := by
  cases anonymous : proto.isAnonymous with
  | true =>
    rw [registering, if_pos anonymous]
    exact known
  | false =>
    by_cases same : name = proto.name
    · rw [same, c.prototype?_registering_self anonymous]
      exact Option.some_ne_none _
    · rwa [c.prototype?_registering_of_ne same]

private theorem prototype?_lowering_ne_none (sound : c.Sound) (form : Form) (known : c.prototype? name ≠ none) :
    (form.lowering c).2.prototype? name ≠ none := by
  rcases prototypes_lowering sound form with ⟨reason, refused⟩ | same
  · rwa [refused]
  · rw [prototype?, same]
    exact prototype?_registering_ne_none form.proto known

private theorem prototype?_lowering_self (sound : c.Sound) {id : Nat} (done : (form.lowering c).1 = .ok id)
    (named : form.proto.isAnonymous = false) : (form.lowering c).2.prototype? form.proto.name = some form.proto := by
  rcases prototypes_lowering sound form with ⟨reason, refused⟩ | same
  · rw [refused] at done
    contradiction
  · rw [prototype?, same]
    exact c.prototype?_registering_self named

end Context

namespace Session

variable {σ : Type} [Machine.Output σ] {passes : List Pass} {session : Session σ} {lost : List Nat}

private theorem prototype?_handleForm (session : Session σ) (form : Form) (name : String) :
    (session.handleForm form).2.context.prototype? name = (form.lowering session.context).2.prototype? name := by
  rcases session.handleForm_context form with same | ⟨_, _, id, _, _, _, same⟩
  · rw [same]
  · rw [same]
    rfl

/-- Each operator with a precedence is built in, or it is a symbol and has a prototype. -/
def InStep (session : Session σ) : Prop :=
  ∀ symbol, session.table.contains symbol = true → symbol ∉ Expr.builtIn →
    Token.isWordPart symbol = false ∧ session.context.prototype? (Prototype.binaryName symbol) ≠ none

private theorem Reachable.inStep (reachable : session.Reachable passes lost) : session.InStep := by
  induction reachable with
  | new name sink evaluate limits =>
    intro symbol known foreign
    exact absurd (PrecedenceTable.mem_builtIn_of_standard known) foreign
  | unread before part read ih =>
    have same := (Form.leaves_next? before.settled read).unread _ rfl
    intro symbol known
    exact ih symbol (same ▸ known)
  | @form session lost before source tokens part table form rest read ih =>
    have sound := before.evolved.sound
    have after := table_handle before.settled (Form.leaves_next? before.settled read)
    have context := prototype?_handleForm { session with table := table } form
    intro symbol known foreign
    rw [after] at known
    show _ ∧ ({ session with table := table }.handleForm form).2.context.prototype? _ ≠ none
    rw [context]
    rcases PrecedenceTable.contains_setting known with ⟨precedence, established⟩ | held
    · -- The form has just given the operator its precedence, so it has been lowered and its head registered.
      obtain ⟨id, done, own⟩ := Form.established?_eq_some established
      have named := Prototype.not_isAnonymous_of_binarySymbol? own
      have readable := (Form.readUnder_next? read rfl).readable part named
      obtain ⟨name, noWord⟩ := readable.writable.of_binarySymbol? own
      refine ⟨noWord, ?_⟩
      rw [← name, Context.prototype?_lowering_self sound done named]
      exact Option.some_ne_none _
    · obtain ⟨noWord, registered⟩ := ih symbol held foreign
      exact ⟨noWord, Context.prototype?_lowering_ne_none sound form registered⟩

/-- Lowering knows every binary operator of a form that has been read. -/
theorem Reachable.lowering_known (reachable : session.Reachable passes lost) {source : String} {tokens : List Token}
    (part : tokens <:+ Token.significant source) {table : PrecedenceTable} {form : Form} {rest : List Token}
    (read : Form.next? session.table tokens = some ⟨.ok form, table, rest⟩) (op : Char) :
    (form.lowering session.context).1 ≠ .error (.unknownBinaryOperator op) := by
  intro failed
  obtain ⟨used, foreign, missing⟩ := Lowering.lowering_misses reachable.evolved.sound.registered failed
  have under := Form.readUnder_next? read rfl
  rcases Prototype.contains_declareIn (under.contains_operators op used) with own | held
  · have named := Prototype.not_isAnonymous_of_binarySymbol? own
    obtain ⟨name, _⟩ := (under.readable part named).writable.of_binarySymbol? own
    rw [← name, Context.prototype?_registering_self _ named] at missing
    contradiction
  · obtain ⟨_, registered⟩ := reachable.inStep op held foreign
    exact Context.prototype?_registering_ne_none form.proto registered missing

/-- Whatever a form comes to, it is not a binary operator that lowering does not know. -/
def Outcome.Known (outcome : Outcome) : Prop :=
  ∀ op, outcome ≠ .failed (.lowering (.unknownBinaryOperator op))

private theorem ensures_known (passes : List Pass) : Ensures passes (fun _ : Session σ => True) Outcome.Known := by
  rintro session lost source tokens ⟨form, table, rest⟩ reachable _ part read
  refine ⟨fun op failed => ?_, trivial⟩
  cases form with
  | error reason => cases failed
  | ok form =>
    have handles := { session with table := table }.handleForm_handles form
    change ({ session with table := table }.handleForm form).1.outcome = _ at failed
    generalize { session with table := table }.handleForm form = handled at handles failed
    cases handles with
    | rejected turned =>
      cases failed
      exact reachable.lowering_known part read op turned
    | kept _ _ well => exact well _ failed
    | run done evaluates bare =>
      rw [runOnce_eq] at failed
      dsimp only at failed
      split at failed <;> cases failed

end Session

variable {σ : Type} [Machine.Output σ] {passes : List Pass} {session : Session σ} {lost : List Nat}

/-- Between the forms of a session each operator with a precedence, but for those built in, has a prototype with two
parameters; so lowering knows every binary operator of a form that has been read. An operator without a precedence is
not in any form that has been read, unless it is the form's own, and what would use it is turned down while reading. -/
theorem operators_in_step (reachable : session.Reachable passes lost) :
    (∀ symbol, session.table.contains symbol = true → symbol ∉ ['=', '<', '+', '-', '*'] →
      ∃ proto, session.context.prototype? (Prototype.binaryName symbol) = some proto ∧
        proto.name = Prototype.binaryName symbol ∧ proto.params.length = 2) ∧
    (∀ sources, ∀ event ∈ (session.runAll sources).1, ∀ op,
      event.outcome ≠ .failed (.lowering (.unknownBinaryOperator op))) ∧
    ∀ op, session.table.get? op = none →
      (∀ tokens item form, Form.next? session.table tokens = some item → item.form = .ok form → op ∈ form.operators →
        form.proto.binarySymbol? = some op) ∧
      ∀ precedence tokens item form, Form.next? (session.table.set op precedence) tokens = some item →
        item.form = .ok form → op ∈ form.operators → form.proto.binarySymbol? ≠ some op →
        ∃ turned, Form.next? session.table tokens = some turned ∧
          ({ session with table := turned.table }.handle turned.form).1.outcome =
            .failed (.reading (.unknownBinaryOperator op)) := by
  refine ⟨fun symbol known foreign => ?_, fun sources => ?_, fun op missing => ⟨?_, ?_⟩⟩
  · obtain ⟨noWord, registered⟩ := reachable.inStep symbol known foreign
    obtain ⟨proto, found⟩ := Option.ne_none_iff_exists'.mp registered
    have evolved := reachable.evolved
    obtain ⟨name, _⟩ := evolved.sound.registered _ proto found
    exact ⟨proto, found, name, ((evolved.spelled _ proto found).operands symbol noWord).1 name⟩
  · exact (Session.ensures_known passes).runAll reachable trivial sources
  · intro tokens item form found read used
    have known := (Form.readUnder_next? found read).contains_operators op used
    rcases Prototype.contains_declareIn known with own | held
    · exact own
    · rw [PrecedenceTable.contains, missing] at held
      contradiction
  · intro precedence tokens item form found read used foreign
    have others : ∀ symbol, symbol ≠ op →
        session.table.get? symbol = (session.table.set op precedence).get? symbol := by
      intro symbol other
      rw [PrecedenceTable.get?_set, if_neg other]
    obtain ⟨turned, found', failed⟩ := Form.next?_lacking missing others used foreign found read
    refine ⟨turned, found', ?_⟩
    rw [failed]
    rfl

/-- An operator that is defined, one that is declared, and one whose definition is given up. -/
def withdrawingSource : String := "def binary| 5 (a b) a; extern binary& 7 (x y); def binary^ 3 (u v) w ^ u"

def withdrawnSession : Session Machine.Sink :=
  (Session.run ⟨.new (.new "m" []), Machine.Sink.unbounded, .standard, true, ⟨100, 10⟩⟩ withdrawingSource).2

def withdrawnUse : String := "2 & (1 ^ 2)"

theorem operators_in_step_withdrawn :
    withdrawnSession.table.contains '|' = true ∧ withdrawnSession.table.contains '&' = true ∧
    (∃ proto, withdrawnSession.context.prototype? (Prototype.binaryName '&') = some proto ∧
      proto.params.length = 2) ∧
    withdrawnSession.table.get? '^' = none ∧
    withdrawnSession.context.prototype? (Prototype.binaryName '^') ≠ none ∧
    (∀ event ∈ (withdrawnSession.runAll [withdrawnUse]).1, ∀ op,
      event.outcome ≠ .failed (.lowering (.unknownBinaryOperator op))) ∧
    ∃ turned, Form.next? withdrawnSession.table (Token.significant withdrawnUse) = some turned ∧
      ({ withdrawnSession with table := turned.table }.handle turned.form).1.outcome =
        .failed (.reading (.unknownBinaryOperator '^')) := by
  have start : Session.Reachable [] _ [] := .new "m" Machine.Sink.unbounded true ⟨100, 10⟩
  obtain ⟨more, reached⟩ := start.run withdrawingSource
  have reachable : withdrawnSession.Reachable [] (more ++ []) := reached
  have table : withdrawnSession.table.contains '|' = true ∧ withdrawnSession.table.contains '&' = true ∧
      withdrawnSession.table.get? '^' = none ∧
      withdrawnSession.context.prototype? (Prototype.binaryName '^') ≠ none := by decide +kernel
  obtain ⟨defined, declared, withdrawn, remembered⟩ := table
  have uses : (Form.next? (withdrawnSession.table.set '^' 3) (Token.significant withdrawnUse)).map (fun item =>
      item.form.toOption.map fun form => ('^' ∈ form.operators : Bool) && form.proto.binarySymbol?.isNone) =
        some (some true) := by decide +kernel
  obtain ⟨registered, known, turnsDown⟩ := operators_in_step reachable
  obtain ⟨proto, found, _, count⟩ := registered '&' declared (by decide)
  refine ⟨defined, declared, ⟨proto, found, count⟩, withdrawn, remembered, known _, ?_⟩
  obtain ⟨item, read, same⟩ := Option.map_eq_some_iff.mp uses
  cases form : item.form with
  | error reason => simp [form, Except.toOption] at same
  | ok form' =>
    simp only [form, Except.toOption, Option.map_some, Option.some.injEq, Bool.and_eq_true, decide_eq_true_eq,
      Option.isNone_iff_eq_none] at same
    obtain ⟨used, own⟩ := same
    exact (turnsDown '^' withdrawn).2 3 _ item form' read form used (by simp [own])

end Kaleidoscope
