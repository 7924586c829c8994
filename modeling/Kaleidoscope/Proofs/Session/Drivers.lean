import Kaleidoscope.Lowering.Unit
import Kaleidoscope.Proofs.Session.Forgetting
import Kaleidoscope.Proofs.Session.Splitting

/-!
Lowering a source, running it in a session that evaluates nothing and running it in one that does report the same errors
and build the same functions, but that the last one removes its expressions.
-/

namespace Kaleidoscope

open Kaleidoscope.Flow

namespace Flow.Module

variable {m n : Module} {id : Nat} {lost : List Nat}

theorem Steps.hides (steps : Steps m n lost) (hides : m.Hides id) : n.Hides id := by
  induction steps with
  | refl => exact hides
  | next _ step ih =>
    obtain ⟨f, found, numbered⟩ := ih
    obtain ⟨g, found', same⟩ := step.keeps found
    exact ⟨g, found', same.name ▸ numbered⟩

/-- All live functions with a number for a name are among these. -/
def Nameless (m : Module) (ids : List Nat) : Prop :=
  ∀ id f, m.raw? id = some f → f.removed = false → Numbered f.name → id ∈ ids

end Flow.Module

namespace Context

variable {c : Context} {proto : Prototype} {protos : List Prototype} {id func : Nat} {f : Function}

/-- The context without these functions. -/
def forgetting (c : Context) (gone : List Nat) : Context := gone.foldr (fun id c => c.deleting id) c

private theorem Sound.forgetting (sound : c.Sound) (gone : List Nat) : (c.forgetting gone).Sound := by
  induction gone with
  | nil => exact sound
  | cons id gone ih => exact ih.deleting id

private theorem prototypes_forgetting (c : Context) (gone : List Nat) :
    (c.forgetting gone).prototypes = c.prototypes := by
  induction gone with
  | nil => rfl
  | cons id gone ih => exact ih

private theorem Spelled.forgetting (spelled : c.Spelled) (gone : List Nat) : (c.forgetting gone).Spelled := by
  unfold Spelled prototype?
  rw [prototypes_forgetting]
  exact spelled

private theorem raw?_forgetting (c : Context) (gone : List Nat) (id : Nat) :
    (c.forgetting gone).builder.module.raw? id =
      if id ∈ gone then (c.builder.module.raw? id).map fun f => { f with removed := true }
      else c.builder.module.raw? id := by
  induction gone with
  | nil => rfl
  | cons first gone ih =>
    show ((c.forgetting gone).deleting first).builder.module.raw? id = _
    rw [raw?_deleting]
    by_cases same : id = first
    · subst same
      rw [if_pos rfl, if_pos List.mem_cons_self, ih]
      split
      · rw [Option.map_map]
        rfl
      · rfl
    · rw [if_neg same, ih]
      simp [same]

private theorem hides_forgetting (gone : List Nat) (hides : c.builder.module.Hides id) :
    (c.forgetting gone).builder.module.Hides id := by
  obtain ⟨f, found, numbered⟩ := hides
  rw [Module.Hides, raw?_forgetting, found]
  split
  · exact ⟨_, rfl, numbered⟩
  · exact ⟨_, rfl, numbered⟩

/-- Lowering a form comes to the same without functions that have no name. -/
theorem lowering_forgetting (sound : c.Sound) (spelled : c.Spelled) {form : Form} (written : form.Spelled)
    {gone : List Nat} (hidden : ∀ id ∈ gone, c.builder.module.Hides id) :
    form.lowering (c.forgetting gone) = ((form.lowering c).1, (form.lowering c).2.forgetting gone) := by
  induction gone with
  | nil => rfl
  | cons id gone ih =>
    obtain ⟨first, others⟩ := List.forall_mem_cons.mp hidden
    have removed := Lowering.lowering_deleting (sound.forgetting gone) (spelled.forgetting gone)
      (hides_forgetting gone first) written
    rw [ih others] at removed
    exact removed

/-- A new declaration has a name, unless it is that of an expression. -/
theorem raw?_of_declare (head : proto.Spelled) (found : (c.declare proto).builder.module.raw? id = some f)
    (numbered : Numbered f.name) : c.builder.module.raw? id = some f ∨ proto.isAnonymous = true ∧ id = c.size := by
  rw [raw?_declare] at found
  split at found
  · next new =>
    cases found
    cases anonymous : proto.isAnonymous with
    | true => exact .inr ⟨rfl, new⟩
    | false =>
      have name : c.builder.module.nameFor proto.name = proto.name := by
        rw [Module.nameFor, show proto.name.isEmpty = false from anonymous]
        rfl
      exact absurd (name ▸ numbered) (head.named anonymous)
  · exact .inl found

private theorem raw?_of_declarable (spelled : c.Spelled) (fresh : c.Declarable protos)
    (found : (c.declaring protos).builder.module.raw? id = some f) (numbered : Numbered f.name) :
    c.builder.module.raw? id = some f := by
  induction protos generalizing c with
  | nil => exact found
  | cons proto protos ih =>
    obtain ⟨⟨registered, named, _⟩, others⟩ := fresh
    have earlier := ih (c := c.declare proto) (spelled.declaring [proto]) others found
    rcases raw?_of_declare (spelled _ _ registered) earlier numbered with old | ⟨anonymous, _⟩
    · exact old
    · rw [named] at anonymous
      contradiction

private theorem raw?_of_designates (head : proto.Spelled) (claims : c.Designates proto func protos)
    (found : (c.declaring protos).builder.module.raw? id = some f) (numbered : Numbered f.name) :
    c.builder.module.raw? id = some f ∨ proto.isAnonymous = true ∧ id = func := by
  cases claims with
  | found named known count => exact .inl found
  | new missing => exact raw?_of_declare head found numbered

end Context

namespace Lowering.Attempt

variable {c : Context} {proto : Prototype} {body : Expr} (attempt : Attempt c proto body) {id : Nat} {f : Function}

private theorem raw?_of_declaring (spelled : c.Spelled) (head : proto.Spelled)
    (found : (c.declaring (attempt.before ++ attempt.meanwhile)).builder.module.raw? id = some f)
    (numbered : Numbered f.name) :
    c.builder.module.raw? id = some f ∨ proto.isAnonymous = true ∧ id = attempt.id := by
  have begun : (c.defining attempt.before proto attempt.scope).Spelled :=
    (spelled.declaring attempt.before).registering head
  have whole : (c.declaring (attempt.before ++ attempt.meanwhile)).builder =
      ((c.defining attempt.before proto attempt.scope).declaring attempt.meanwhile).builder := by
    rw [Context.declaring_defining, builder_defining]
  rw [whole] at found
  have earlier := Context.raw?_of_declarable begun attempt.fresh found numbered
  rw [builder_defining] at earlier
  exact Context.raw?_of_designates head attempt.claims earlier numbered

private theorem numbered_of_live (attempt : Attempt c proto body) (pristine : c.Pristine) (spelled : c.Spelled)
    (head : proto.Spelled)
    (found : (definition proto body c).2.builder.module.raw? id = some f) (live : f.removed = false)
    (numbered : Numbered f.name) :
    (∃ g, c.builder.module.raw? id = some g ∧ g.removed = false ∧ Numbered g.name) ∨
      proto.isAnonymous = true ∧ (definition proto body c).1 = .ok id := by
  have runs := attempt.runs c (.refl c) pristine
  have elsewhere : id ≠ attempt.id →
      (c.declaring (attempt.before ++ attempt.meanwhile)).builder.module.raw? id = some f →
      ∃ g, c.builder.module.raw? id = some g ∧ g.removed = false ∧ Numbered g.name := by
    intro apart known
    rcases attempt.raw?_of_declaring spelled head known numbered with old | ⟨_, same⟩
    · exact ⟨f, old, live, numbered⟩
    · exact absurd same apart
  cases result : attempt.result with
  | error reason =>
    rw [attempt.raw?_failed (.refl c) pristine result] at found
    split at found
    · cases found
      contradiction
    · next apart => exact .inl (elsewhere apart found)
  | ok value =>
    rw [attempt.raw?_finished (.refl c) pristine result] at found
    split at found
    · next same =>
      cases found
      rw [(Pass.kept_runAll _ _).name, (attempt.wellFormed result).2.name] at numbered
      have declared := attempt.raw?_defining (.refl c) pristine
      rw [builder_defining, ← same] at declared
      rcases attempt.raw?_of_declaring spelled head declared numbered with old | ⟨anonymous, _⟩
      · exact .inl ⟨_, old, rfl, numbered⟩
      · rw [runs, result, same]
        exact .inr ⟨anonymous, rfl⟩
    · next apart => exact .inl (elsewhere apart found)

end Lowering.Attempt

namespace Context

variable {c : Context} {id : Nat} {f : Function}

/-- Of the live functions without a name, lowering a form adds only that of the form itself. -/
theorem numbered_lowering (sound : c.Sound) (spelled : c.Spelled) {form : Form} (written : form.Spelled)
    (found : (form.lowering c).2.builder.module.raw? id = some f) (live : f.removed = false)
    (numbered : Numbered f.name) :
    (∃ g, c.builder.module.raw? id = some g ∧ g.removed = false ∧ Numbered g.name) ∨
      form.isBare = true ∧ (form.lowering c).1 = .ok id := by
  cases form with
  | declaration proto =>
    left
    change (Lowering.declaration proto c).2.builder.module.raw? id = some f at found
    rcases Lowering.declaration_runs c proto with ⟨reason, runs⟩ | ⟨func, protos, claims, runs⟩
    · rw [runs c (.refl c)] at found
      exact ⟨f, found, live, numbered⟩
    · rw [runs c (.refl c), registering_builder] at found
      rcases raw?_of_designates written.1 claims found numbered with old | ⟨anonymous, _⟩
      · exact ⟨f, old, live, numbered⟩
      · rw [written.2] at anonymous
        contradiction
  | definition proto body =>
    change (Lowering.definition proto body c).2.builder.module.raw? id = some f at found
    show _ ∨ proto.isAnonymous = true ∧ (Lowering.definition proto body c).1 = .ok id
    rcases Lowering.definition_runs sound.registered sound.pristine proto body with ⟨reason, _, runs⟩ | ⟨⟨attempt⟩⟩
    · rw [runs c (.refl c)] at found
      exact .inl ⟨f, found, live, numbered⟩
    · exact attempt.numbered_of_live sound.pristine spelled written.1 found live numbered

end Context

namespace Form

/-- Two ways of handling the forms of a source that agree on the precedences after each form read the same forms. -/
theorem fold_related {σ τ : Type} (first : σ → PrecedenceTable → Except SyntaxError Form → σ × PrecedenceTable)
    (second : τ → PrecedenceTable → Except SyntaxError Form → τ × PrecedenceTable) (related : σ → τ → Prop)
    (step : ∀ s t table form, (∀ read, form = .ok read → read.Spelled) → related s t →
      (first s table form).2 = (second t table form).2 ∧ related (first s table form).1 (second t table form).1)
    {source : String} {s : σ} {t : τ} {tokens : List Token} (part : tokens <:+ Token.significant source)
    (table : PrecedenceTable) (holds : related s t) :
    (fold first s table tokens).2 = (fold second t table tokens).2 ∧
      related (fold first s table tokens).1 (fold second t table tokens).1 := by
  induction size : tokens.length using Nat.strongRecOn generalizing s t table tokens with
  | _ size ih =>
    subst size
    cases found : next? table tokens with
    | none =>
      rw [fold_of_none _ found, fold_of_none _ found]
      exact ⟨rfl, holds⟩
    | some item =>
      obtain ⟨written, rest⟩ := spelled_next? part found
      obtain ⟨same, onward⟩ := step s t item.table item.form written holds
      rw [fold_of_some _ found, fold_of_some _ found, ← same]
      exact ih item.rest.length (next?_shorter found) (rest.trans part) _ onward rfl

end Form

namespace Session

/-- The error of a form that could not be read or lowered. -/
def Outcome.rejection? : Outcome → Option Error
  | failed (.evaluation _) => none
  | failed reason => some reason
  | _ => none

def Event.rejection? (event : Event) : Option Error := event.outcome.rejection?

/-- The error of a form that was not lowered. -/
def errorOf? : Except Error Nat → Option Error
  | .error reason => some reason
  | .ok _ => none

variable {σ τ : Type} {session quiet : Session σ} {eager : Session τ} {gone : List Nat} {form : Form}

/-- Two sessions that have handled the same forms. Only the second one runs expressions; `gone` are those it has run. -/
structure Twins (quiet : Session σ) (eager : Session τ) (gone : List Nat) : Prop where
  quietly : quiet.evaluate = false
  eagerly : eager.evaluate = true
  table : eager.table = quiet.table
  context : eager.context = quiet.context.forgetting gone
  evolved : ∃ lost, Evolved quiet lost
  hidden : ∀ id ∈ gone, quiet.module.Hides id
  nameless : quiet.module.Nameless gone

private theorem Twins.withTable (twins : Twins quiet eager gone) (table : PrecedenceTable) :
    Twins { quiet with table := table } { eager with table := table } gone := by
  obtain ⟨lost, sound, spelled, steps⟩ := twins.evolved
  exact ⟨twins.quietly, twins.eagerly, rfl, twins.context, ⟨lost, sound, spelled, steps⟩, twins.hidden, twins.nameless⟩

/-- Running expressions leaves of the functions those that have a name. -/
theorem Twins.function? (twins : Twins quiet eager gone) (id : Nat) (f : Function) :
    eager.module.function? id = some f ↔ quiet.module.function? id = some f ∧ ¬ Numbered f.name := by
  have raw : eager.module.raw? id =
      if id ∈ gone then (quiet.module.raw? id).map fun f => { f with removed := true } else quiet.module.raw? id := by
    rw [Session.module, twins.context]
    exact Context.raw?_forgetting _ gone id
  simp only [Module.function?, Option.filter_eq_some_iff, raw, Bool.not_eq_true']
  by_cases member : id ∈ gone
  · rw [if_pos member]
    constructor
    · rintro ⟨found, live⟩
      obtain ⟨g, _, rfl⟩ := Option.map_eq_some_iff.mp found
      contradiction
    · rintro ⟨⟨found, _⟩, named⟩
      obtain ⟨g, found', numbered⟩ := twins.hidden id member
      cases found.symm.trans found'
      exact absurd numbered named
  · rw [if_neg member]
    constructor
    · rintro ⟨found, live⟩
      exact ⟨⟨found, live⟩, fun numbered => member (twins.nameless id f found live numbered)⟩
    · rintro ⟨held, _⟩
      exact held

namespace Twins

variable (twins : Twins quiet eager gone) (written : form.Spelled)

include twins written

private theorem lowering_eq : form.lowering eager.context =
    ((form.lowering quiet.context).1, (form.lowering quiet.context).2.forgetting gone) := by
  obtain ⟨lost, evolved⟩ := twins.evolved
  rw [twins.context]
  exact Context.lowering_forgetting evolved.sound evolved.spelled written twins.hidden

private theorem hidden_lowering : ∀ id ∈ gone, (quiet.lowering form).module.Hides id := by
  intro id member
  obtain ⟨lost, sound, spelled, name, steps⟩ := twins.evolved
  have onward := Context.steps_lowering sound spelled (steps.operators (operators_empty name)) written
  exact onward.hides (twins.hidden id member)

/-- The only new function without a name is that of a bare expression. -/
theorem nameless_lowering {id : Nat} {f : Function} (found : (quiet.lowering form).module.raw? id = some f)
    (live : f.removed = false) (numbered : Numbered f.name) :
    id ∈ gone ∨ form.isBare = true ∧ (form.lowering quiet.context).1 = .ok id := by
  obtain ⟨lost, evolved⟩ := twins.evolved
  rcases Context.numbered_lowering evolved.sound evolved.spelled written found live numbered with
    ⟨g, old, live', numbered'⟩ | new
  · exact .inl (twins.nameless id g old live' numbered')
  · exact .inr new

end Twins

variable [Machine.Output σ]

/-- What evaluation comes to plays no part in which forms are rejected. -/
theorem rejection?_handleForm (session : Session σ) (form : Form) :
    (session.handleForm form).1.rejection? = errorOf? ((form.lowering session.context).1.mapError .lowering) := by
  have handles := session.handleForm_handles form
  generalize session.handleForm form = handled at handles ⊢
  cases handles with
  | rejected failed =>
    rw [failed]
    rfl
  | @kept id outcome done stays well =>
    rw [done]
    cases outcome with
    | failed reason => exact absurd rfl (well reason)
    | _ => rfl
  | run done evaluates bare =>
    rw [done, runOnce_eq]
    dsimp only
    split <;> rfl

private theorem handleForm_of_quiet (quietly : session.evaluate = false) (form : Form) :
    (session.handleForm form).2 = session.lowering form := by
  have handles := session.handleForm_handles form
  generalize session.handleForm form = handled at handles ⊢
  cases handles with
  | rejected failed => rfl
  | kept done stays well => rfl
  | run done evaluates bare =>
    rw [quietly] at evaluates
    contradiction

/-- The next form of a source, when forms are only lowered. -/
def lowerNext (state : List (Except Error Nat) × Context) (table : PrecedenceTable) (form : Except SyntaxError Form) :
    (List (Except Error Nat) × Context) × PrecedenceTable :=
  let lowered := Form.lowerRead form state.2 table
  ((lowered.1 :: state.1, lowered.2.1), lowered.2.2)

/-- A session that runs nothing has come as far as lowering alone. -/
structure Keeps (lowered : List (Except Error Nat) × Context) (state : List Event × Session σ) : Prop where
  quietly : state.2.evaluate = false
  context : state.2.context = lowered.2
  rejections : state.1.map Event.rejection? = lowered.1.map errorOf?

theorem Keeps.next {lowered : List (Except Error Nat) × Context} {state : List Event × Session σ}
    (keeps : Keeps lowered state) (table : PrecedenceTable) (form : Except SyntaxError Form) :
    (lowerNext lowered table form).2 = (handleNext state table form).2 ∧
      Keeps (lowerNext lowered table form).1 (handleNext state table form).1 := by
  obtain ⟨results, context⟩ := lowered
  obtain ⟨quietly, rfl, rejections⟩ := keeps
  cases form with
  | error reason => exact ⟨rfl, quietly, rfl, congrArg (_ :: ·) rejections⟩
  | ok form =>
    have still : Session.evaluate { state.2 with table := table } = false := quietly
    have after := handleForm_of_quiet still form
    have rejected := rejection?_handleForm { state.2 with table := table } form
    refine ⟨congrArg Session.table after.symm, (congrArg Session.evaluate after).trans quietly,
      congrArg Session.context after, List.cons_eq_cons.mpr ⟨rejected, rejections⟩⟩

private theorem keeps_run (session : Session σ) (quietly : session.evaluate = false) (source : String) :
    Keeps ((lowerSource session.context session.table source).1, (lowerSource session.context session.table source).2.1)
      (session.run source) := by
  have start : Keeps ([], session.context) ([], session) := ⟨quietly, rfl, rfl⟩
  obtain ⟨_, quietly, context, rejections⟩ := Form.fold_related lowerNext handleNext Keeps
    (fun _ _ table form _ keeps => keeps.next table form) (List.suffix_refl (Token.significant source)) session.table
    start
  rw [run_eq_fold]
  refine ⟨quietly, context, ?_⟩
  show (_ : List Event).reverse.map _ = (_ : List (Except Error Nat)).reverse.map _
  rw [List.map_reverse, List.map_reverse]
  exact congrArg List.reverse rejections

private theorem twins_new (moduleName : String) (optimize : Bool) (limits limits' : Machine.Limits) (sink : σ)
    (sink' : τ) :
    Twins (new ⟨moduleName, optimize, false, limits⟩ sink) (new ⟨moduleName, optimize, true, limits'⟩ sink') [] := by
  have start : (new ⟨moduleName, optimize, false, limits⟩ sink).Reachable _ [] := .new moduleName sink false limits
  refine ⟨rfl, rfl, rfl, rfl, ⟨[], start.evolved⟩, List.forall_mem_nil _, fun id f found => ?_⟩
  contradiction

namespace Twins

variable (twins : Twins quiet eager gone) (written : form.Spelled)

include twins written

theorem lowering (unnamed : ∀ id, form.isBare = true → (form.lowering quiet.context).1 ≠ .ok id) :
    Twins (quiet.lowering form) (eager.lowering form) gone := by
  obtain ⟨lost, evolved⟩ := twins.evolved
  have same := twins.lowering_eq written
  have onward := evolved.handleForm written
  rw [handleForm_of_quiet twins.quietly] at onward
  refine ⟨twins.quietly, twins.eagerly, ?_, ?_, ⟨_, onward⟩, twins.hidden_lowering written,
    fun id f found live numbered => ?_⟩
  · simp only [Session.lowering, same, twins.table]
  · simp only [Session.lowering, same]
  · rcases twins.nameless_lowering written found live numbered with old | ⟨bare, done⟩
    · exact old
    · exact absurd done (unnamed id bare)

variable [Machine.Output τ]

theorem runOnce {id : Nat} (bare : form.isBare = true) (done : (form.lowering quiet.context).1 = .ok id) :
    Twins (quiet.lowering form) ((eager.lowering form).runOnce id).2 (id :: gone) := by
  obtain ⟨lost, evolved⟩ := twins.evolved
  have same := twins.lowering_eq written
  have onward := evolved.handleForm written
  rw [handleForm_of_quiet twins.quietly] at onward
  have hides : (quiet.lowering form).module.Hides id := by
    cases form with
    | declaration proto => contradiction
    | definition proto body => exact Context.numbered_definition evolved.sound bare done
  rw [runOnce_eq]
  refine ⟨twins.quietly, twins.eagerly, ?_, ?_, ⟨_, onward⟩,
    List.forall_mem_cons.mpr ⟨hides, twins.hidden_lowering written⟩, fun other f found live numbered => ?_⟩
  · simp only [Session.lowering, same, twins.table]
  · simp only [Session.lowering, same]
    rfl
  · rcases twins.nameless_lowering written found live numbered with old | ⟨_, done'⟩
    · exact List.mem_cons_of_mem id old
    · cases done.symm.trans done'
      exact List.mem_cons_self

theorem handleForm : ∃ gone', Twins (quiet.handleForm form).2 (eager.handleForm form).2 gone' := by
  have same := congrArg Prod.fst (twins.lowering_eq written)
  rw [handleForm_of_quiet twins.quietly]
  have handles := eager.handleForm_handles form
  generalize eager.handleForm form = handled at handles ⊢
  cases handles with
  | rejected failed =>
    refine ⟨gone, twins.lowering written fun id _ done => ?_⟩
    cases (same.symm.trans failed).symm.trans done
  | kept done stays well =>
    refine ⟨gone, twins.lowering written fun id bare _ => ?_⟩
    simp [twins.eagerly, bare] at stays
  | @run id done evaluates bare => exact ⟨id :: gone, twins.runOnce written bare (same.symm.trans done)⟩

end Twins

variable [Machine.Output τ]

/-- Twins that have rejected the same forms for the same reasons. -/
def Agree (first : List Event × Session σ) (second : List Event × Session τ) : Prop :=
  (∃ gone, Twins first.2 second.2 gone) ∧ second.1.map Event.rejection? = first.1.map Event.rejection?

theorem Agree.handleNext {first : List Event × Session σ} {second : List Event × Session τ}
    (agree : Agree first second) (table : PrecedenceTable) {form : Except SyntaxError Form}
    (written : ∀ read, form = .ok read → read.Spelled) :
    (handleNext first table form).2 = (handleNext second table form).2 ∧
      Agree (handleNext first table form).1 (handleNext second table form).1 := by
  obtain ⟨⟨gone, twins⟩, same⟩ := agree
  have again := twins.withTable table
  cases form with
  | error reason => exact ⟨rfl, ⟨gone, again⟩, congrArg (_ :: ·) same⟩
  | ok form =>
    have lowered := congrArg Prod.fst (again.lowering_eq (written form rfl))
    obtain ⟨gone', onward⟩ := again.handleForm (written form rfl)
    refine ⟨onward.table.symm, ⟨gone', onward⟩, List.cons_eq_cons.mpr ⟨?_, same⟩⟩
    show ({ second.2 with table := table }.handleForm form).1.rejection? =
      ({ first.2 with table := table }.handleForm form).1.rejection?
    rw [rejection?_handleForm, rejection?_handleForm, lowered]

theorem Twins.run (twins : Twins quiet eager gone) (source : String) : Agree (quiet.run source) (eager.run source) := by
  have start : Agree ([], quiet) ([], eager) := ⟨⟨gone, twins⟩, rfl⟩
  obtain ⟨_, last, same⟩ := Form.fold_related handleNext handleNext Agree
    (fun _ _ table _ written agree => agree.handleNext table written) (List.suffix_refl (Token.significant source))
    quiet.table start
  rw [run_eq_fold, run_eq_fold, twins.table]
  refine ⟨last, ?_⟩
  dsimp only
  rw [List.map_reverse, List.map_reverse, same]

end Session

/-- Lowering a source, running it without evaluation and running it with evaluation agree, whatever the limits and the
sinks. Each form is rejected by all or by none, for the same reason; the first two build the same module; and what is
live in the last one is what has a name in the others, where functions of bare expressions have a number for a name. -/
theorem drivers_agree {σ τ : Type} [Machine.Output σ] [Machine.Output τ] (moduleName : String) (optimize : Bool)
    (limits limits' : Machine.Limits) (sink : σ) (sink' : τ) (source : String) :
    let builder := Builder.new moduleName (if optimize then Pass.standard else [])
    let quiet := (Session.new ⟨moduleName, optimize, false, limits⟩ sink).run source
    let eager := (Session.new ⟨moduleName, optimize, true, limits'⟩ sink').run source
    (lowerUnit builder source).2 = quiet.1.filterMap Session.Event.rejection? ∧
      (lowerSource (.new builder) .standard source).1.map Session.errorOf? = quiet.1.map Session.Event.rejection? ∧
      eager.1.map Session.Event.rejection? = quiet.1.map Session.Event.rejection? ∧
      (lowerUnit builder source).1.module = quiet.2.module ∧
      ∀ id f, eager.2.module.function? id = some f ↔ quiet.2.module.function? id = some f ∧ ¬ Numbered f.name := by
  have keeps := Session.keeps_run (Session.new ⟨moduleName, optimize, false, limits⟩ sink) rfl source
  obtain ⟨⟨gone, twins⟩, agree⟩ := (Session.twins_new moduleName optimize limits limits' sink sink').run source
  refine ⟨?_, keeps.rejections.symm, agree, congrArg (·.builder.module) keeps.context.symm, twins.function?⟩
  have rejections := congrArg (List.filterMap id) keeps.rejections.symm
  rw [List.filterMap_map, List.filterMap_map] at rejections
  exact rejections

end Kaleidoscope
