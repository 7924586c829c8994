import Mathlib.Data.List.ModifyLast
import Kaleidoscope.Proofs.Form.Separation
import Kaleidoscope.Proofs.Session.Evolution

/-!
Splitting a source. Two sources run one after the other do what they do as one text with a semicolon on a line of its
own between them, but for an error at the end of the first one, which finds the semicolon there.
-/

namespace Kaleidoscope

namespace Session

open Form (Item)

def Outcome.meeting (stop : Token) : Outcome → Outcome
  | failed (.reading reason) => failed (.reading (reason.meeting stop))
  | outcome => outcome

/-- The same event where the input does not end but goes on with `stop`. -/
def Event.meeting (stop : Token) (event : Event) : Event := { event with outcome := event.outcome.meeting stop }

variable {σ : Type} [Machine.Output σ] (session : Session σ) (events earlier : List Event) (table : PrecedenceTable)

/-- The event of a form. -/
def eventOf (form : Except SyntaxError Form) : Event := ({ session with table := table }.handle form).1

private theorem handleNext_eq (form : Except SyntaxError Form) :
    handleNext (events, session) table form =
      ((eventOf session table form :: events, ({ session with table := table }.handle form).2),
        ({ session with table := table }.handle form).2.table) :=
  rfl

/-- What becomes of a form does not depend on the events before it. -/
theorem fold_append (tokens : List Token) :
    Form.fold handleNext (events ++ earlier, session) table tokens =
      (((Form.fold handleNext (events, session) table tokens).1.1 ++ earlier,
        (Form.fold handleNext (events, session) table tokens).1.2),
        (Form.fold handleNext (events, session) table tokens).2) := by
  induction size : tokens.length using Nat.strongRecOn generalizing session events table tokens with
  | _ size ih =>
    subst size
    cases found : Form.next? table tokens with
    | none => rw [Form.fold_of_none _ found, Form.fold_of_none _ found]
    | some item =>
      rw [Form.fold_of_some _ found, Form.fold_of_some _ found, handleNext_eq, handleNext_eq]
      exact ih item.rest.length (Form.next?_shorter found) _ (_ :: events) _ item.rest rfl

/-- A form that could be read is never reported as unreadable. -/
theorem meeting_handleForm (form : Form) (stop : Token) :
    (session.handleForm form).1.meeting stop = (session.handleForm form).1 := by
  have handles := session.handleForm_handles form
  generalize session.handleForm form = handled at handles ⊢
  cases handles with
  | rejected failed => rfl
  | @kept _ outcome done stays well =>
    cases outcome with
    | failed reason => exact absurd rfl (well reason)
    | _ => rfl
  | run done evaluates bare =>
    rw [runOnce_eq]
    dsimp only
    split <;> rfl

private theorem eventOf_meeting (stop : Token) (form : Except SyntaxError Form) :
    eventOf session table (form.mapError (·.meeting stop)) = (eventOf session table form).meeting stop := by
  cases form with
  | error reason => rfl
  | ok form => exact (meeting_handleForm { session with table := table } form stop).symm

private theorem handle_meeting (stop : Token) (form : Except SyntaxError Form) :
    (session.handle (form.mapError (·.meeting stop))).2 = (session.handle form).2 := by
  cases form <;> rfl

private theorem meeting_eventOf {form : Except SyntaxError Form} (stop : Token)
    (finished : ∀ expected, form ≠ .error (.unexpected none expected)) :
    (eventOf session table form).meeting stop = eventOf session table form := by
  rw [← eventOf_meeting]
  cases form with
  | ok form => rfl
  | error reason =>
    have same : reason.meeting stop = reason := by
      unfold SyntaxError.meeting
      split
      · next expected => exact absurd rfl (finished expected)
      · rfl
    show eventOf session table (.error (reason.meeting stop)) = eventOf session table (.error reason)
    rw [same]

/-- An event after which the source goes on is not that of an unfinished form. -/
theorem meeting_before {tokens : List Token} {item : Item} (found : Form.next? table tokens = some item)
    (onward : item.rest ≠ []) (stop : Token) :
    (eventOf session item.table item.form).meeting stop = eventOf session item.table item.form :=
  meeting_eventOf session item.table stop fun _ unfinished => onward (Form.rest_of_unfinished found unfinished)

private theorem reverse_modifyHead (change : Event → Event) :
    (events.modifyHead change).reverse = events.reverse.modifyLast change := by
  cases events with
  | nil => rfl
  | cons last others => rw [List.modifyHead_cons, List.reverse_cons, List.reverse_cons, List.modifyLast_concat]

private theorem table_fold (source : String) :
    (Form.fold handleNext ([], session) session.table (Token.significant source)).1.2.table =
      (Form.fold handleNext ([], session) session.table (Token.significant source)).2 :=
  Form.fold_preserves handleNext (fun state table => state.2.table = table) (fun _ _ _ _ _ _ _ => rfl)
    (List.suffix_refl _) rfl

private theorem fold_semicolon (tokens more : List Token) :
    Form.fold handleNext (events, session) table (tokens ++ .mark .semicolon :: more) =
      Form.fold handleNext
        ((Form.fold handleNext ([], session) table tokens).1.1.modifyHead (Event.meeting (.mark .semicolon)) ++ events,
          (Form.fold handleNext ([], session) table tokens).1.2)
        (Form.fold handleNext ([], session) table tokens).2 more := by
  induction size : tokens.length using Nat.strongRecOn generalizing session events table tokens with
  | _ size ih =>
    subst size
    have onward := Form.next?_append table tokens more
    cases found : Form.next? table tokens with
    | none =>
      rw [found] at onward
      rw [Form.fold_of_none _ found, Form.fold_congr _ onward]
      rfl
    | some item =>
      rw [found] at onward
      rw [Form.fold_of_some _ found, Form.fold_of_some _ onward, handleNext_eq, handleNext_eq]
      simp only [Item.before, eventOf_meeting, handle_meeting]
      rw [ih item.rest.length (Form.next?_shorter found) _ _ _ _ rfl]
      generalize after : ({ session with table := item.table }.handle item.form).2 = next
      have later := fold_append next [] [eventOf session item.table item.form] next.table item.rest
      rw [List.nil_append] at later
      rw [later]
      cases left : (Form.fold handleNext ([], next) next.table item.rest).1.1 with
      | nil => rfl
      | cons last others =>
        have nonempty : item.rest ≠ [] := by
          intro empty
          rw [empty, Form.fold_of_none _ rfl] at left
          contradiction
        simp [meeting_before session table found nonempty]

/-- A source leaves behind the session and the precedences that its last form leaves. -/
theorem run_eq_fold (source : String) :
    session.run source =
      ((Form.fold handleNext ([], session) session.table (Token.significant source)).1.1.reverse,
        (Form.fold handleNext ([], session) session.table (Token.significant source)).1.2) := by
  have same := table_fold session source
  refine Prod.ext rfl ?_
  rw [run_eq, ← same]

end Session

/-- Splitting a session changes nothing but what an unfinished form at the split is said to have met. -/
theorem run_append_semicolon {σ : Type} [Machine.Output σ] (session : Session σ) (before after : String) :
    session.run (before ++ "\n;\n" ++ after) =
      ((session.run before).1.modifyLast (·.meeting (.mark .semicolon)) ++ ((session.run before).2.run after).1,
        ((session.run before).2.run after).2) := by
  simp only [Session.run_eq_fold, Token.significant_append, Session.fold_semicolon]
  have same := Session.table_fold session before
  rw [same, List.append_nil]
  generalize Form.fold Session.handleNext ([], session) session.table (Token.significant before) = first
  obtain ⟨⟨events, next⟩, table⟩ := first
  have later := Session.fold_append next [] (events.modifyHead (·.meeting (.mark .semicolon))) table
    (Token.significant after)
  rw [List.nil_append] at later
  rw [later]
  dsimp only
  rw [List.reverse_append, Session.reverse_modifyHead]

end Kaleidoscope
