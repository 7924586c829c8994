import Kaleidoscope.Proofs.Lowering.Calls
import Kaleidoscope.Proofs.Lowering.Reachable
import Kaleidoscope.Proofs.Pass.Optimized
import Kaleidoscope.Session

/-!
What sessions do to their modules. Functions are declared, get bodies and are removed: those that have no name once
they have been run, and others when their bodies cannot be lowered.
-/

namespace Kaleidoscope

open Kaleidoscope.Flow

namespace Flow.Module

/-- `n` is `m` with `g` for the function `id`. -/
def Puts (m : Module) (id : Nat) (g : Function) (n : Module) : Prop :=
  ∀ other, n.raw? other = if other = id then some g else m.raw? other

/-- One change of a module, and the functions whose definition it gives up. -/
inductive Step (m : Module) : Module → List Nat → Prop where
  | declare {name : String} {params : List String}
      (fresh : name.isEmpty = true ∨ ¬ Numbered name ∧ m.find? name = none)
      (operands : OperandCount (m.nameFor name) params.length) : Step m (m.add name params).2 []
  | define {n : Module} {id : Nat} {f g : Function} (found : m.raw? id = some f) (puts : m.Puts id g n)
      (head : g.head = f.head) (wellFormed : g.WellFormed)
      (calls : ∀ {callee count}, g.Calls callee count → m.Callable callee count) : Step m n []
  /-- The body of a function could not be lowered. -/
  | giveUp {n : Module} {id : Nat} {f g : Function} (found : m.raw? id = some f) (puts : m.Puts id g n)
      (name : g.name = f.name) (params : g.params = f.params) (removed : g.removed = true) : Step m n [id]
  /-- A function without a name has been run. -/
  | forget {id : Nat} {f : Function} (found : m.raw? id = some f) (numbered : Numbered f.name) :
      Step m (m.remove id) []

inductive Steps (m : Module) : Module → List Nat → Prop where
  | refl : Steps m m []
  | next {n o : Module} {lost more : List Nat} (before : Steps m n lost) (step : Step n o more) :
      Steps m o (more ++ lost)

theorem Steps.trans {m n o : Module} {lost more : List Nat} (first : Steps m n lost) (second : Steps n o more) :
    Steps m o (more ++ lost) := by
  induction second with
  | refl => exact first
  | next _ step ih =>
    rw [List.append_assoc]
    exact ih.next step

variable {m n : Module} {lost : List Nat}

/-- What has become of a function that was there before. -/
structure Same (lost : List Nat) (id : Nat) (f g : Function) : Prop where
  name : g.name = f.name
  params : g.params = f.params
  removed : ¬ Numbered f.name → (g.removed = true ↔ id ∈ lost ∨ f.removed = true)

theorem puts_remove {id : Nat} {f : Function} (found : m.raw? id = some f) :
    m.Puts id { f with removed := true } (m.remove id) := by
  intro other
  rw [raw?_remove, found]
  rfl

theorem Puts.cases {changed id : Nat} {f g : Function} (puts : m.Puts changed g n) (found : n.raw? id = some f) :
    id = changed ∧ f = g ∨ m.raw? id = some f := by
  rw [puts] at found
  split at found
  · next same => exact .inl ⟨same, (Option.some.inj found).symm⟩
  · exact .inr found

theorem Puts.keeps {changed id : Nat} {f g h : Function} (puts : m.Puts changed g n) (before : m.raw? changed = some h)
    (same : Same lost changed h g) (others : ∀ id ∈ lost, id = changed) (found : m.raw? id = some f) :
    ∃ g, n.raw? id = some g ∧ Same lost id f g := by
  by_cases here : id = changed
  · subst here
    cases before.symm.trans found
    exact ⟨g, (puts id).trans (if_pos rfl), same⟩
  · have elsewhere : id ∉ lost := fun member => here (others id member)
    exact ⟨f, by rw [puts, if_neg here, found], rfl, rfl, fun _ => by simp [elsewhere]⟩

/-- What a step leaves of a function. -/
theorem Step.keeps (step : Step m n lost) {id : Nat} {f : Function} (found : m.raw? id = some f) :
    ∃ g, n.raw? id = some g ∧ Same lost id f g := by
  cases step with
  | declare fresh operands =>
    have inside : id ≠ m.functions.size := Nat.ne_of_lt (Array.getElem?_eq_some_iff.mp found).1
    exact ⟨f, by rw [raw?_add, if_neg inside, found], rfl, rfl, fun _ => by simp⟩
  | @define _ changed h g before puts head wellFormed calls =>
    have removed : g.removed = h.removed := congrArg Head.removed head
    have same : Same [] changed h g := ⟨congrArg Head.name head, congrArg Head.params head, fun _ => by simp [removed]⟩
    exact puts.keeps before same (List.forall_mem_nil _) found
  | giveUp before puts name params removed =>
    exact puts.keeps before ⟨name, params, fun _ => by simp [removed]⟩ (by simp) found
  | forget before numbered =>
    exact (puts_remove before).keeps before ⟨rfl, rfl, fun named => absurd numbered named⟩ (by simp) found

/-- Where a function after a step comes from: it was there before, or it is the one just declared. -/
theorem Step.origin (step : Step m n lost) {id : Nat} {g : Function} (found : n.raw? id = some g) :
    (∃ f, m.raw? id = some f ∧ Same lost id f g) ∨
      lost = [] ∧ id = m.functions.size ∧ g.removed = false ∧ OperandCount g.name g.params.length ∧
        (Numbered g.name ∨ n.find? g.name = some id) := by
  have put : ∀ {changed : Nat} {f h : Function}, m.raw? changed = some f → m.Puts changed h n →
      ∃ f, m.raw? id = some f := by
    intro changed f h before puts
    rcases puts.cases found with ⟨rfl, _⟩ | old
    · exact ⟨f, before⟩
    · exact ⟨g, old⟩
  have kept : (∃ f, m.raw? id = some f) → ∃ f, m.raw? id = some f ∧ Same lost id f g := by
    rintro ⟨f, old⟩
    obtain ⟨h, held, same⟩ := step.keeps old
    cases held.symm.trans found
    exact ⟨f, old, same⟩
  cases step with
  | @declare name params fresh operands =>
    rw [raw?_add] at found
    split at found
    · next new =>
      cases found
      refine .inr ⟨rfl, new, rfl, operands, ?_⟩
      cases named : name.isEmpty with
      | true =>
        left
        show Numbered (m.nameFor name)
        rw [nameFor, if_pos named]
        exact numbered_toString _
      | false =>
        have absent : m.find? name = none := by simpa [named] using fresh.imp_right And.right
        right
        show (m.add name params).2.find? (m.nameFor name) = some id
        rw [new, nameFor, named]
        exact find?_add_new named absent
    · exact .inl (kept ⟨g, found⟩)
  | define before puts head wellFormed calls => exact .inl (kept (put before puts))
  | giveUp before puts name params removed => exact .inl (kept (put before puts))
  | forget before numbered => exact .inl (kept (put before (puts_remove before)))

theorem Step.operators (step : Step m n lost) (operators : m.Operators) : n.Operators := by
  intro id g found
  rcases step.origin found with ⟨f, before, same⟩ | ⟨_, _, _, operands, _⟩
  · rw [same.name, same.params]
    exact operators id f before
  · exact operands

theorem Steps.operators (steps : Steps m n lost) (operators : m.Operators) : n.Operators := by
  induction steps with
  | refl => exact operators
  | next _ step ih => exact step.operators ih

end Flow.Module

open Flow.Module (Step Steps)

theorem Form.Spelled.head {form : Form} (written : form.Spelled) : form.proto.Spelled := by
  cases form <;> exact written.1

namespace Context

/-- The function that lowering a form gives up: it was found or declared, but its body could not be lowered. -/
def givenUp (c : Context) : Form → List Nat
  | .declaration _ => []
  | .definition proto body =>
    match (Lowering.functionToDefine proto c).1, (Lowering.definition proto body c).1 with
    | .ok id, .error _ => [id]
    | _, _ => []

/-- All prototypes can come from text. -/
def Spelled (c : Context) : Prop := ∀ name proto, c.prototype? name = some proto → proto.Spelled

variable {c : Context} {proto : Prototype} {protos : List Prototype}

theorem Spelled.registering (spelled : c.Spelled) (head : proto.Spelled) : (c.registering proto).Spelled := by
  intro name other found
  rcases prototype?_registering found with ⟨rfl, _, _⟩ | old
  · exact head
  · exact spelled name other old

theorem Spelled.declaring (spelled : c.Spelled) (protos : List Prototype) : (c.declaring protos).Spelled := by
  unfold Spelled prototype?
  rw [prototypes_declaring]
  exact spelled

/-- Declaring a function that is not there yet. -/
theorem step_declare (head : proto.Spelled)
    (missing : proto.isAnonymous = true ∨ c.builder.find? proto.name = none) :
    Step c.builder.module (c.declare proto).builder.module [] := by
  cases anonymous : proto.isAnonymous with
  | true =>
    have unnamed : proto.name.isEmpty = true := anonymous
    refine .declare (.inl unnamed) (Numbered.operandCount ?_ _)
    rw [Module.nameFor, if_pos unnamed]
    exact numbered_toString _
  | false =>
    have named : proto.name.isEmpty = false := anonymous
    have absent : c.builder.module.find? proto.name = none := by simpa [anonymous, Builder.find?, named] using missing
    refine .declare (.inr ⟨head.named anonymous, absent⟩) ?_
    rw [Module.nameFor, named]
    exact head.operands

private theorem steps_declarable (spelled : c.Spelled) (fresh : c.Declarable protos) :
    Steps c.builder.module (c.declaring protos).builder.module [] := by
  induction protos generalizing c with
  | nil => exact .refl
  | cons proto protos ih =>
    obtain ⟨⟨registered, _, missing⟩, others⟩ := fresh
    have first := step_declare (spelled _ _ registered) (.inr missing)
    exact (Steps.refl.next first).trans (ih (c := c.declare proto) (spelled.declaring [proto]) others)

private theorem steps_designates {id : Nat} (head : proto.Spelled) (claims : c.Designates proto id protos) :
    Steps c.builder.module (c.declaring protos).builder.module [] := by
  cases claims with
  | found named found count => exact .refl
  | new missing => exact Steps.refl.next (step_declare head missing)

private theorem steps_declaration (head : proto.Spelled) :
    Steps c.builder.module (Lowering.declaration proto c).2.builder.module [] := by
  rcases Lowering.declaration_runs c proto with ⟨reason, runs⟩ | ⟨id, protos, claims, runs⟩
  · rw [runs c (.refl c)]
    exact .refl
  · rw [runs c (.refl c), registering_builder]
    exact steps_designates head claims

theorem Refuses.functionToDefine {reason : LoweringError} (refuses : c.Refuses proto reason) :
    (Lowering.functionToDefine proto c).1 = .error reason := by
  cases refuses with
  | redefinition named found hasBody => simp [Lowering.functionToDefine_apply, named, found, hasBody]
  | conflict named found bodiless count => simp [Lowering.functionToDefine_apply, named, found, bodiless, count]

theorem Designates.functionToDefine {id : Nat} (claims : c.Designates proto id protos)
    (bodiless : c.builder.hasBody id = false) : (Lowering.functionToDefine proto c).1 = .ok id := by
  cases claims with
  | found named found count => simp [Lowering.functionToDefine_apply, named, found, bodiless, count]
  | new missing =>
    rcases missing with anonymous | missing
    · simp [Lowering.functionToDefine_apply, anonymous]
    · simp [Lowering.functionToDefine_apply, missing]

end Context

namespace Lowering.Attempt

variable {c : Context} {proto : Prototype} {body : Expr} (attempt : Attempt c proto body)

/-- All that is declared before and while a body is lowered. -/
theorem steps_declared (spelled : c.Spelled) (head : proto.Spelled) :
    Steps c.builder.module (c.declaring (attempt.before ++ attempt.meanwhile)).builder.module [] := by
  have begun : (c.defining attempt.before proto attempt.scope).Spelled :=
    (spelled.declaring attempt.before).registering head
  have meanwhile := Context.steps_declarable begun attempt.fresh
  rw [Context.declaring_defining, builder_defining, builder_defining] at meanwhile
  exact (Context.steps_designates head attempt.claims).trans meanwhile

theorem callsOnly {value : Operand} (done : attempt.result = .ok value) (inner : body.Spelled)
    (operators : (c.declaring (attempt.before ++ attempt.meanwhile)).builder.module.Operators) :
    (attempt.function value).CallsOnly (c.declaring (attempt.before ++ attempt.meanwhile)).builder.module.Callable := by
  have lowers := attempt.lowers done
  rw [builder_defining] at lowers
  have opened : (Site.opened attempt.name attempt.params).func.CallsOnly
      (c.declaring (attempt.before ++ attempt.meanwhile)).builder.module.Callable := by
    intro id callee args found
    simp [Site.opened, Function.addBlock, Function.declared, Function.instr?, Function.inst?] at found
  have started := Site.callsOnly_bindParams opened proto.params 0 []
  rw [attempt.opens] at started
  have last := lowers.callsOnly operators (by simpa using inner) started
  exact Site.callsOnly_push_plain last "" fun _ _ => Instr.noConfusion

private theorem step_define (pristine : c.Pristine) {value : Operand} (done : attempt.result = .ok value)
    (inner : body.Spelled) (operators : (c.declaring (attempt.before ++ attempt.meanwhile)).builder.module.Operators) :
    Step (c.declaring (attempt.before ++ attempt.meanwhile)).builder.module
      (definition proto body c).2.builder.module [] := by
  have found := attempt.raw?_defining (.refl c) pristine
  rw [builder_defining] at found
  obtain ⟨wellFormed, grows⟩ := attempt.wellFormed done
  have improves := Pass.improves_runAll c.builder.passes wellFormed
  refine .define found (attempt.raw?_finished (.refl c) pristine done) ?_ improves.wellFormed fun calls => ?_
  · rw [(Pass.kept_runAll _ _).head]
    simp only [Function.head, grows.name, grows.params, grows.removed]
    rfl
  · exact (attempt.callsOnly done inner operators).calls (improves.calls calls)

private theorem step_giveUp (pristine : c.Pristine) {reason : LoweringError} (failed : attempt.result = .error reason) :
    Step (c.declaring (attempt.before ++ attempt.meanwhile)).builder.module
      (definition proto body c).2.builder.module [attempt.id] := by
  have found := attempt.raw?_defining (.refl c) pristine
  rw [builder_defining] at found
  exact .giveUp found (attempt.raw?_failed (.refl c) pristine failed) rfl rfl rfl

end Lowering.Attempt

namespace Context

variable {c : Context} {proto : Prototype} {body : Expr}

private theorem steps_definition (sound : c.Sound) (spelled : c.Spelled) (operators : c.builder.module.Operators)
    (head : proto.Spelled) (inner : body.Spelled) :
    Steps c.builder.module (Lowering.definition proto body c).2.builder.module
      (c.givenUp (.definition proto body)) := by
  rcases Lowering.definition_runs sound.registered sound.pristine proto body with
    ⟨reason, refuses, runs⟩ | ⟨⟨attempt⟩⟩
  · simp only [givenUp, refuses.functionToDefine, runs c (.refl c)]
    exact .refl
  · have declared := attempt.steps_declared spelled head
    have runs := attempt.runs c (.refl c) sound.pristine
    simp only [givenUp, attempt.claims.functionToDefine attempt.bodiless]
    cases result : attempt.result with
    | ok value =>
      have step := attempt.step_define sound.pristine result inner (declared.operators operators)
      rw [result] at runs
      rw [runs] at step ⊢
      exact declared.next step
    | error reason =>
      have step := attempt.step_giveUp sound.pristine result
      rw [result] at runs
      rw [runs] at step ⊢
      exact declared.next step

theorem steps_lowering (sound : c.Sound) (spelled : c.Spelled) (operators : c.builder.module.Operators) {form : Form}
    (written : form.Spelled) :
    Steps c.builder.module (form.lowering c).2.builder.module (c.givenUp form) := by
  cases form with
  | declaration proto => exact steps_declaration written.1
  | definition proto body => exact steps_definition sound spelled operators written.1 written.2

/-- The prototype of a form is registered once there is a function for it; only a form that is refused leaves none. -/
theorem prototypes_lowering (sound : c.Sound) (form : Form) :
    (∃ reason, form.lowering c = (.error reason, c)) ∨
      (form.lowering c).2.prototypes = (c.registering form.proto).prototypes := by
  cases form with
  | declaration proto =>
    rcases Lowering.declaration_runs c proto with ⟨reason, runs⟩ | ⟨id, protos, _, runs⟩
    · exact .inl ⟨reason, runs c (.refl c)⟩
    · right
      show (Lowering.declaration proto c).2.prototypes = _
      rw [runs c (.refl c), ← declaring_registering]
      exact prototypes_declaring _ protos
  | definition proto body =>
    rcases Lowering.definition_runs sound.registered sound.pristine proto body with ⟨reason, _, runs⟩ | ⟨⟨attempt⟩⟩
    · exact .inl ⟨reason, runs c (.refl c)⟩
    · exact .inr (attempt.prototypes_finished (.refl c) sound.pristine)

/-- What lowering a form finds registered was registered before, or is the prototype of the form. -/
theorem prototype?_lowering (sound : c.Sound) (form : Form) {name : String} {other : Prototype}
    (found : (form.lowering c).2.prototype? name = some other) :
    other = form.proto ∧ name = form.proto.name ∧ form.proto.isAnonymous = false ∨ c.prototype? name = some other := by
  rcases prototypes_lowering sound form with ⟨reason, refused⟩ | same
  · rw [refused] at found
    exact .inr found
  · rw [prototype?, same] at found
    exact prototype?_registering found

theorem Spelled.lowering (sound : c.Sound) (spelled : c.Spelled) {form : Form} (written : form.Spelled) :
    (form.lowering c).2.Spelled := by
  intro name other found
  rcases prototype?_lowering sound form found with ⟨rfl, _, _⟩ | old
  · exact written.head
  · exact spelled name other old

/-- A function without a name has a number for a name once it has been lowered. -/
theorem numbered_definition (sound : c.Sound) (anonymous : proto.isAnonymous = true) {id : Nat}
    (done : (Lowering.definition proto body c).1 = .ok id) :
    ∃ f, (Lowering.definition proto body c).2.builder.module.raw? id = some f ∧ Numbered f.name := by
  obtain ⟨attempt, value, _, result, found⟩ := exists_attempt sound done
  refine ⟨_, found, ?_⟩
  rw [(Pass.kept_runAll _ _).name, (attempt.wellFormed result).2.name]
  have declared := attempt.declared c (.refl c) sound.pristine
  have claims := attempt.claims
  generalize attempt.before = before, attempt.id = id at declared claims
  cases claims with
  | found named found count =>
    rw [anonymous] at named
    contradiction
  | new missing =>
    have added := (Module.raw?_add c.builder.module proto.name proto.params c.size).trans (if_pos rfl)
    have name : c.builder.module.nameFor proto.name = attempt.name :=
      congrArg Function.name (Option.some.inj (added.symm.trans declared))
    show Numbered attempt.name
    rw [← name, Module.nameFor, show proto.name.isEmpty = true from anonymous]
    exact numbered_toString _

theorem params_definition (sound : c.Sound) {id : Nat} (done : (Lowering.definition proto body c).1 = .ok id) :
    ∃ f, (Lowering.definition proto body c).2.builder.module.raw? id = some f ∧
      f.params.length = proto.params.length := by
  obtain ⟨attempt, value, _, result, found⟩ := exists_attempt sound done
  refine ⟨_, found, ?_⟩
  rw [(Pass.kept_runAll _ _).params, (attempt.wellFormed result).2.params]
  exact attempt.count

end Context

/-- Whether a form is an expression on its own. -/
def Form.isBare : Form → Bool
  | .declaration _ => false
  | .definition proto _ => proto.isAnonymous

namespace Session

variable {σ : Type} [Machine.Output σ]

/-- The sessions that sources lead to, form by form, and the functions whose definitions were given up on the way.
Running a whole source stays among them. -/
inductive Reachable (passes : List Pass) : Session σ → List Nat → Prop where
  | new (name : String) (sink : σ) (evaluate : Bool) (limits : Machine.Limits) :
      Reachable passes ⟨.new (.new name passes), sink, .standard, evaluate, limits⟩ []
  | unread {session : Session σ} {lost : List Nat} (before : Reachable passes session lost) {source : String}
      {tokens : List Token} (part : tokens <:+ Token.significant source) {table : PrecedenceTable}
      {reason : SyntaxError} {rest : List Token}
      (read : Form.next? session.table tokens = some ⟨.error reason, table, rest⟩) :
      Reachable passes ({ session with table := table }.handle (.error reason)).2 lost
  | form {session : Session σ} {lost : List Nat} (before : Reachable passes session lost) {source : String}
      {tokens : List Token} (part : tokens <:+ Token.significant source) {table : PrecedenceTable} {form : Form}
      {rest : List Token} (read : Form.next? session.table tokens = some ⟨.ok form, table, rest⟩) :
      Reachable passes ({ session with table := table }.handle (.ok form)).2 (session.context.givenUp form ++ lost)

variable {passes : List Pass} {session : Session σ} {lost : List Nat}

/-- The session once a form has been lowered. -/
def lowering (session : Session σ) (form : Form) : Session σ :=
  { session with
    context := (form.lowering session.context).2
    table := form.settle (form.lowering session.context).1 session.table }

/-- All that handling a form can come to. -/
inductive Handles (session : Session σ) (form : Form) : Event × Session σ → Prop where
  | rejected {reason : LoweringError} (failed : (form.lowering session.context).1 = .error reason) :
      Handles session form ((Outcome.failed (.lowering reason)).silent, session.lowering form)
  | kept {id : Nat} {outcome : Outcome} (done : (form.lowering session.context).1 = .ok id)
      (stays : session.evaluate = false ∨ form.isBare = false) (well : ∀ reason, outcome ≠ .failed reason) :
      Handles session form (outcome.silent, session.lowering form)
  | run {id : Nat} (done : (form.lowering session.context).1 = .ok id) (evaluates : session.evaluate = true)
      (bare : form.isBare = true) : Handles session form ((session.lowering form).runOnce id)

theorem handleForm_handles (session : Session σ) (form : Form) : session.Handles form (session.handleForm form) := by
  unfold handleForm
  dsimp only [Form.lower]
  split
  · next id done =>
    cases form with
    | declaration proto => exact .kept done (.inr rfl) fun _ => Outcome.noConfusion
    | definition proto body =>
      unfold settle
      dsimp only
      split
      · next named => exact .kept done (.inr (by simpa [Form.isBare] using named)) fun _ => Outcome.noConfusion
      · next anonymous =>
        split
        · next evaluates => exact .run done evaluates (by simpa [Form.isBare] using anonymous)
        · next quiet => exact .kept done (.inl (by simpa using quiet)) fun _ => Outcome.noConfusion
  · next reason failed => exact .rejected failed

/-- How running a function once comes out, and what is left of it. -/
theorem runOnce_eq (session : Session σ) (id : Nat) :
    session.runOnce id =
      let run := Machine.runFunction session.module session.limits session.sink id []
      (⟨match run.result with
        | .ok value => .value value
        | .error fault => .failed (.evaluation fault), run.output⟩,
        { session with context := session.context.deleting id, sink := run.sink }) := by
  unfold runOnce
  dsimp only
  generalize Machine.runFunction session.module session.limits session.sink id [] = run
  obtain ⟨result, port, steps⟩ := run
  cases result <;> rfl

/-- Running an expression changes only the context and the sink. -/
theorem handleForm_frame (session : Session σ) (form : Form) :
    ∃ context sink, (session.handleForm form).2 = { session.lowering form with context := context, sink := sink } := by
  have handles := session.handleForm_handles form
  generalize session.handleForm form = handled at handles ⊢
  cases handles with
  | rejected failed => exact ⟨_, _, rfl⟩
  | kept done stays well => exact ⟨_, _, rfl⟩
  | run done evaluates bare => exact ⟨_, _, by rw [runOnce_eq]⟩

/-- What a session does to its context with a form. -/
theorem handleForm_context (session : Session σ) (form : Form) :
    (session.handleForm form).2.context = (form.lowering session.context).2 ∨
      ∃ proto body id, form = .definition proto body ∧ proto.isAnonymous = true ∧
        (form.lowering session.context).1 = .ok id ∧
        (session.handleForm form).2.context = (form.lowering session.context).2.deleting id := by
  have handles := session.handleForm_handles form
  generalize session.handleForm form = handled at handles ⊢
  cases handles with
  | rejected failed => exact .inl rfl
  | kept done stays well => exact .inl rfl
  | @run id done evaluates bare =>
    cases form with
    | declaration proto => contradiction
    | definition proto body => exact .inr ⟨proto, body, id, rfl, bare, done, by rw [runOnce_eq]; rfl⟩

/-- What is known of the context and of the module of a session. -/
structure Evolved (session : Session σ) (lost : List Nat) : Prop where
  sound : session.context.Sound
  spelled : session.context.Spelled
  steps : ∃ name, Steps (.empty name) session.module lost

theorem operators_empty (name : String) : (Module.empty name).Operators := by
  intro id f found
  simp [Module.raw?, Module.empty] at found

theorem Evolved.handleForm (evolved : Evolved session lost) {form : Form} (written : form.Spelled) :
    Evolved (session.handleForm form).2 (session.context.givenUp form ++ lost) := by
  obtain ⟨sound, spelled, name, steps⟩ := evolved
  have sound' := sound.lowering form
  have spelled' := spelled.lowering sound written
  have onward := steps.trans (Context.steps_lowering sound spelled (steps.operators (operators_empty name)) written)
  rcases session.handleForm_context form with same | ⟨proto, body, id, rfl, anonymous, done, same⟩
  · refine ⟨same ▸ sound', same ▸ spelled', name, ?_⟩
    rw [Session.module, same]
    exact onward
  · obtain ⟨f, found, numbered⟩ := Context.numbered_definition sound anonymous done
    refine ⟨same ▸ sound'.deleting id, same ▸ spelled', name, ?_⟩
    rw [Session.module, same]
    exact onward.next (.forget found numbered)

theorem Reachable.evolved (reachable : session.Reachable passes lost) : Evolved session lost := by
  induction reachable with
  | new name sink evaluate limits =>
    refine ⟨.new _ rfl, fun _ _ found => ?_, name, .refl⟩
    simp [Context.prototype?, Context.new] at found
  | unread _ _ _ ih => exact ⟨ih.sound, ih.spelled, ih.steps⟩
  | @form session lost before source tokens part table form rest read ih =>
    have written := (Form.spelled_next? part read).1 form rfl
    have evolved : Evolved { session with table := table } lost := ⟨ih.sound, ih.spelled, ih.steps⟩
    exact evolved.handleForm written

/-- The next form of a source, with the precedences that reading it has left. -/
def handleNext (state : List Event × Session σ) (table : PrecedenceTable) (form : Except SyntaxError Form) :
    (List Event × Session σ) × PrecedenceTable :=
  let handled := { state.2 with table := table }.handle form
  ((handled.1 :: state.1, handled.2), handled.2.table)

theorem run_eq (session : Session σ) (source : String) :
    (session.run source).2 =
      { (Form.fold handleNext ([], session) session.table (Token.significant source)).1.2 with
        table := (Form.fold handleNext ([], session) session.table (Token.significant source)).2 } :=
  rfl

theorem Reachable.next (reachable : session.Reachable passes lost) {source : String} {tokens : List Token}
    (part : tokens <:+ Token.significant source) {item : Form.Item}
    (read : Form.next? session.table tokens = some item) :
    ∃ more, ({ session with table := item.table }.handle item.form).2.Reachable passes (more ++ lost) := by
  obtain ⟨form, table, rest⟩ := item
  cases form with
  | error reason => exact ⟨[], reachable.unread part read⟩
  | ok form => exact ⟨_, reachable.form part read⟩

/-- Running a source leads from one session that can be reached to another. -/
theorem Reachable.run (reachable : session.Reachable passes lost) (source : String) :
    ∃ more, (session.run source).2.Reachable passes (more ++ lost) := by
  have folded : (Form.fold handleNext ([], session) session.table (Token.significant source)).1.2.table =
        (Form.fold handleNext ([], session) session.table (Token.significant source)).2 ∧
      ∃ more, (Form.fold handleNext ([], session) session.table (Token.significant source)).1.2.Reachable passes
        (more ++ lost) := by
    refine Form.fold_preserves handleNext
      (fun state table => state.2.table = table ∧ ∃ more, state.2.Reachable passes (more ++ lost)) ?_
      (List.suffix_refl _) ⟨rfl, [], reachable⟩
    rintro ⟨events, before⟩ table tokens item part ⟨rfl, more, reached⟩ read
    obtain ⟨further, onward⟩ := reached.next part read
    exact ⟨rfl, further ++ more, List.append_assoc _ _ _ ▸ onward⟩
  obtain ⟨same, more, reached⟩ := folded
  refine ⟨more, ?_⟩
  rw [run_eq, ← same]
  exact reached

end Session

end Kaleidoscope
