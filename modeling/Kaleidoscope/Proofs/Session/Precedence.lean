import Kaleidoscope.Proofs.Form.Heads
import Kaleidoscope.Proofs.PrecedenceTable
import Kaleidoscope.Proofs.Session.Evolution

/-!
Precedences over a session. Each form is a transaction: once it has been handled nothing is pending, and the table is as
it was before the form unless a binary operator was declared or defined, which then has the precedence of its head.
-/

namespace Kaleidoscope

open PrecedenceTable (Settled)

namespace Prototype

variable {table : PrecedenceTable} (proto : Prototype)

/-- A binary operator and its precedence. -/
def operator? : Option (Char × Int) := proto.binarySymbol?.map fun op => (op, proto.precedence)

private theorem declareIn_declareIn (table : PrecedenceTable) :
    proto.declareIn (proto.declareIn table) = proto.declareIn table := by
  unfold declareIn
  cases proto.binarySymbol? with
  | none => rfl
  | some op => exact PrecedenceTable.declare_declare _ _ _ _

private theorem retractIn_declareIn (settled : table.Settled) : proto.retractIn (proto.declareIn table) = table := by
  unfold retractIn declareIn
  cases proto.binarySymbol? with
  | none => rfl
  | some op => exact PrecedenceTable.retract_declare _ (settled.not_pending op)

private theorem commitIn_declareIn (settled : table.Settled) :
    proto.commitIn (proto.declareIn table) = table.setting proto.operator? := by
  unfold commitIn declareIn operator?
  cases proto.binarySymbol? with
  | none => rfl
  | some op => exact PrecedenceTable.commit_declare _ (settled.not_pending op)

variable {proto}

private theorem settled_setting (settled : table.Settled) (range : 1 ≤ proto.precedence ∧ proto.precedence ≤ 100) :
    (table.setting proto.operator?).Settled := by
  unfold operator?
  cases proto.binarySymbol? with
  | none => exact settled
  | some op => exact settled.set op range

theorem not_isAnonymous_of_binarySymbol? {op : Char} (found : proto.binarySymbol? = some op) :
    proto.isAnonymous = false := by
  unfold binarySymbol? operatorSymbol? at found
  cases empty : proto.isAnonymous with
  | false => rfl
  | true =>
    have blank : proto.name = "" := String.isEmpty_iff.mp empty
    cases kind : proto.kind <;> simp [kind, blank] at found

end Prototype

namespace Form

/-- What reading a form leaves of the precedences: the operator of its head is declared if the form could be read. -/
structure Leaves (before after : PrecedenceTable) (form : Except SyntaxError Form) : Prop where
  unread : ∀ reason, form = .error reason → after = before
  read : ∀ form', form = .ok form' → after = form'.proto.declareIn before ∧
    1 ≤ form'.proto.precedence ∧ form'.proto.precedence ≤ 100

variable {table : PrecedenceTable} {tokens : List Token}

private theorem leaves_parseDefinition (settled : table.Settled) (tokens : List Token) :
    Leaves table (parseDefinition table tokens).2 ((parseDefinition table tokens).1.map Prod.fst) := by
  unfold parseDefinition
  split
  · exact ⟨fun _ _ => rfl, fun _ read => by contradiction⟩
  · next proto rest shorter head =>
    dsimp only
    cases body : Expr.parse (proto.declareIn table) rest with
    | error reason => exact ⟨fun _ _ => proto.retractIn_declareIn settled, fun _ read => by contradiction⟩
    | ok result =>
      refine ⟨fun _ unread => by contradiction, fun form read => ?_⟩
      cases read
      exact ⟨rfl, Prototype.range_parse head⟩

private theorem leaves_parseDeclaration (table : PrecedenceTable) (tokens : List Token) :
    Leaves table (parseDeclaration table tokens).2 ((parseDeclaration table tokens).1.map Prod.fst) := by
  unfold parseDeclaration
  split
  · exact ⟨fun _ _ => rfl, fun _ read => by contradiction⟩
  · next proto rest head =>
    refine ⟨fun _ unread => by contradiction, fun form read => ?_⟩
    cases read
    exact ⟨rfl, Prototype.range_parse head⟩

private theorem map_fst_skipping (token : Token) (reading : Reading Form tokens) :
    (reading.skipping token).map Prod.fst = reading.map Prod.fst := by
  cases reading <;> rfl

private theorem leaves_parse (settled : table.Settled) (tokens : List Token) :
    Leaves table (parse table tokens).2 ((parse table tokens).1.map Prod.fst) := by
  unfold parse
  split
  · dsimp only
    rw [map_fst_skipping]
    exact leaves_parseDefinition settled _
  · dsimp only
    rw [map_fst_skipping]
    exact leaves_parseDeclaration table _
  · dsimp only
    cases Expr.parse table tokens with
    | error reason => exact ⟨fun _ _ => rfl, fun _ read => by contradiction⟩
    | ok result =>
      refine ⟨fun _ unread => by contradiction, fun form read => ?_⟩
      cases read
      exact ⟨rfl, (by decide : (1 : Int) ≤ Prototype.defaultPrecedence ∧ Prototype.defaultPrecedence ≤ 100)⟩

theorem leaves_next? (settled : table.Settled) {item : Item} (found : next? table tokens = some item) :
    Leaves table item.table item.form := by
  unfold next? at found
  split at found
  · contradiction
  · next first more _ =>
    have leaves := leaves_parse settled (first :: more)
    split at found
    · next read =>
      cases found
      rw [read] at leaves
      exact leaves
    · next read =>
      cases found
      rw [read] at leaves
      exact leaves

/-- The binary operator that a form declares or defines, if it could be read and lowered. -/
def established? (context : Context) : Except SyntaxError Form → Option (Char × Int)
  | .error _ => none
  | .ok form =>
    match (form.lowering context).1 with
    | .ok _ => form.proto.operator?
    | .error _ => none

end Form

namespace Session

variable {σ : Type} [Machine.Output σ] {passes : List Flow.Pass} {session : Session σ} {lost : List Nat}

private theorem table_handleForm (session : Session σ) (form : Form) :
    (session.handleForm form).2.table = form.settle (form.lowering session.context).1 session.table := by
  obtain ⟨_, _, same⟩ := session.handleForm_frame form
  rw [same]
  rfl

/-- Handling a form settles what reading it has left pending. -/
theorem table_handle (settled : session.table.Settled) {after : PrecedenceTable} {form : Except SyntaxError Form}
    (leaves : Form.Leaves session.table after form) :
    ({ session with table := after }.handle form).2.table =
      session.table.setting (Form.established? session.context form) := by
  cases form with
  | error reason => exact leaves.unread reason rfl
  | ok form =>
    obtain ⟨declared, _⟩ := leaves.read form rfl
    subst declared
    refine (table_handleForm _ form).trans ?_
    unfold Form.established? Form.settle
    dsimp only
    cases (form.lowering session.context).1 with
    | ok id => rw [Prototype.declareIn_declareIn, Prototype.commitIn_declareIn _ settled]
    | error reason =>
      rw [Prototype.declareIn_declareIn, Prototype.retractIn_declareIn _ settled]
      rfl

private theorem settled_handle (settled : session.table.Settled) {after : PrecedenceTable}
    {form : Except SyntaxError Form} (leaves : Form.Leaves session.table after form) :
    ({ session with table := after }.handle form).2.table.Settled := by
  rw [table_handle settled leaves]
  cases form with
  | error reason => exact settled
  | ok form =>
    unfold Form.established?
    dsimp only
    split
    · exact Prototype.settled_setting settled (leaves.read form rfl).2
    · exact settled

/-- Only what has no name is run, so a form with a name does not fail once it has been lowered. -/
theorem settle_ne_failed (session : Session σ) {form : Form} (named : form.proto.isAnonymous = false) (id : Nat)
    (reason : Error) : (session.settle form id).1.outcome ≠ .failed reason := by
  cases form with
  | declaration proto => exact Outcome.noConfusion
  | definition proto body =>
    have named : proto.isAnonymous = false := named
    simp [settle, named, Outcome.silent]

private theorem established?_of_failed {after : PrecedenceTable} {form : Except SyntaxError Form} {reason : Error}
    (failed : ({ session with table := after }.handle form).1.outcome = .failed reason) :
    Form.established? session.context form = none := by
  cases form with
  | error reason => rfl
  | ok form =>
    simp only [handle, handleForm, Form.lower, Form.established?] at failed ⊢
    generalize form.lowering session.context = lowered at failed ⊢
    obtain ⟨result, context⟩ := lowered
    cases result with
    | error reason => rfl
    | ok id =>
      show form.proto.operator? = none
      cases operator : form.proto.binarySymbol? with
      | none => simp [Prototype.operator?, operator]
      | some op =>
        have named := Prototype.not_isAnonymous_of_binarySymbol? operator
        exact absurd failed (settle_ne_failed _ named id reason)

theorem Reachable.settled (reachable : session.Reachable passes lost) : session.table.Settled := by
  induction reachable with
  | new name sink evaluate limits => exact PrecedenceTable.settled_standard
  | unread _ _ read ih => exact settled_handle ih (Form.leaves_next? ih read)
  | form _ _ read ih => exact settled_handle ih (Form.leaves_next? ih read)

end Session

variable {σ : Type} [Machine.Output σ] {passes : List Flow.Pass} {session : Session σ} {lost : List Nat}

/-- After each form of a session nothing is pending and all precedences lie between 1 and 100. The table is as it was
before the form, but for the binary operator that the form has declared or defined; so it is as it was if the form
failed. -/
theorem precedences_after_form (reachable : session.Reachable passes lost) {tokens : List Token} {item : Form.Item}
    (read : Form.next? session.table tokens = some item) :
    let handled := { session with table := item.table }.handle item.form
    handled.2.table.pending = .empty ∧
      (∀ symbol precedence, handled.2.table.get? symbol = some precedence → 1 ≤ precedence ∧ precedence ≤ 100) ∧
      (∀ symbol, handled.2.table.get? symbol =
        match Form.established? session.context item.form with
        | some (op, precedence) => if symbol = op then some precedence else session.table.get? symbol
        | none => session.table.get? symbol) ∧
      ∀ reason, handled.1.outcome = .failed reason → handled.2.table = session.table := by
  have settled := reachable.settled
  have leaves := Form.leaves_next? settled read
  have settled' := Session.settled_handle settled leaves
  have table := Session.table_handle settled leaves
  refine ⟨settled'.pending, settled'.range, fun symbol => ?_, fun reason failed => ?_⟩
  · rw [table]
    cases Form.established? session.context item.form with
    | none => rfl
    | some operator => exact session.table.get?_set _ symbol _
  · rw [table, Session.established?_of_failed failed]
    rfl

/-- A definition of a built-in operator that cannot be lowered. -/
def overrulingSource : String := "def binary< 5 (a b) zz 1 < 2"

theorem precedences_after_form_overruling :
    ∃ item, Form.next? .standard (Token.significant overrulingSource) = some item ∧ item.table.get? '<' = some 5 ∧
      (Session.handle ⟨.new (.new "m" []), Machine.Sink.unbounded, item.table, true, ⟨100, 10⟩⟩
        item.form).2.table.get? '<' = some 10 := by
  have start : Session.Reachable [] _ [] := .new "m" Machine.Sink.unbounded true ⟨100, 10⟩
  have declared : (Form.next? .standard (Token.significant overrulingSource)).map
      (fun item => (item.table.get? '<', (Form.established? (.new (.new "m" [])) item.form).isNone)) =
        some (some 5, true) := by decide +kernel
  obtain ⟨item, read, same⟩ := Option.map_eq_some_iff.mp declared
  obtain ⟨held, nothing⟩ := Prod.mk.inj same
  refine ⟨item, read, held, ?_⟩
  have after := (precedences_after_form start read).2.2.1 '<'
  rw [Option.isNone_iff_eq_none.mp nothing] at after
  exact after

end Kaleidoscope
