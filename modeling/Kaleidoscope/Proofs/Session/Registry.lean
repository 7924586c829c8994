import Kaleidoscope.Proofs.Form.Rendered
import Kaleidoscope.Proofs.Session.Drivers
import Kaleidoscope.Proofs.Session.Resolution

/-!
The functions of a session and the prototypes it remembers go together. No two live functions have the same name, each
one with a name has a prototype with as many parameters, and the prototypes of operators have as many parameters as the
operators have operands.
-/

namespace Kaleidoscope

open Kaleidoscope.Flow

namespace Flow.Module

variable {m n o : Module} {name : String} {params : List String}

/-- The numbers given for names have been counted, and none of them has been given twice. -/
structure Numbering (m : Module) : Prop where
  counted : ∀ id f, m.raw? id = some f → Numbered f.name → ∃ number < m.nextAnonymous, f.name = toString number
  apart : ∀ id other f g, m.raw? id = some f → m.raw? other = some g → Numbered f.name → f.name = g.name → id = other

/-- `n` has the functions of `m`, some of them removed and some with other bodies. -/
structure Thins (m n : Module) : Prop where
  count : n.nextAnonymous = m.nextAnonymous
  origin : ∀ id g, n.raw? id = some g →
    ∃ f, m.raw? id = some f ∧ f.name = g.name ∧ f.params = g.params ∧ (g.removed = false → f.removed = false)

theorem Thins.trans (first : m.Thins n) (second : n.Thins o) : m.Thins o := by
  refine ⟨second.count.trans first.count, fun id h found => ?_⟩
  obtain ⟨g, found, name, params, live⟩ := second.origin id h found
  obtain ⟨f, found, name', params', live'⟩ := first.origin id g found
  exact ⟨f, found, name'.trans name, params'.trans params, fun lives => live' (live lives)⟩

private theorem thins_modify (m : Module) (id : Nat) {change : Function → Function}
    (name : ∀ f, (change f).name = f.name)
    (params : ∀ f, (change f).params = f.params) (live : ∀ f, (change f).removed = false → f.removed = false) :
    m.Thins (m.modify id change) := by
  refine ⟨rfl, fun other g found => ?_⟩
  rw [raw?_modify] at found
  split at found
  · next same =>
    obtain ⟨f, before, rfl⟩ := Option.map_eq_some_iff.mp found
    exact ⟨f, same ▸ before, (name f).symm, (params f).symm, live f⟩
  · exact ⟨g, found, rfl, rfl, fun live => live⟩

private theorem thins_remove (m : Module) (id : Nat) : m.Thins (m.remove id) :=
  m.thins_modify id (fun _ => rfl) (fun _ => rfl) fun _ live => by contradiction

private theorem thins_withBody (m : Module) (id : Nat) (f : Function) : m.Thins (m.withBody id f) :=
  m.thins_modify id (fun _ => rfl) (fun _ => rfl) fun _ live => live

private theorem Numbering.thins (numbering : m.Numbering) (thins : m.Thins n) : n.Numbering := by
  constructor
  · intro id g found numbered
    obtain ⟨f, found, name, _⟩ := thins.origin id g found
    rw [thins.count, ← name]
    exact numbering.counted id f found (name ▸ numbered)
  · intro id other g h found found' numbered same
    obtain ⟨f, found, name, _⟩ := thins.origin id g found
    obtain ⟨f', found', name', _⟩ := thins.origin other h found'
    apply numbering.apart id other f f' found found' (name ▸ numbered)
    rw [name, name', same]

/-- A new function takes the next number, or a name that is none. -/
theorem Numbering.add (numbering : m.Numbering) (fresh : name.isEmpty = true ∨ ¬ Numbered name) :
    (m.add name params).2.Numbering := by
  have next : m.nextAnonymous ≤ (m.add name params).2.nextAnonymous := by
    rw [add_eq]
    dsimp only
    split <;> omega
  have new : Numbered (m.nameFor name) →
      m.nameFor name = toString m.nextAnonymous ∧ m.nextAnonymous < (m.add name params).2.nextAnonymous := by
    intro numbered
    cases empty : name.isEmpty with
    | true => simp [nameFor, add_eq, empty]
    | false =>
      simp only [nameFor, empty, Bool.false_eq_true, false_or] at fresh numbered
      contradiction
  have unused : ∀ id f, m.raw? id = some f → Numbered (m.nameFor name) → f.name ≠ m.nameFor name := by
    intro id f found numbered same
    obtain ⟨number, below, named⟩ := numbering.counted id f found (same ▸ numbered)
    have again : number = m.nextAnonymous := toString_injective (named.symm.trans (same.trans (new numbered).1))
    omega
  constructor
  · intro id f found numbered
    rw [raw?_add] at found
    split at found
    · cases found
      exact ⟨m.nextAnonymous, (new numbered).2, (new numbered).1⟩
    · obtain ⟨number, below, named⟩ := numbering.counted id f found numbered
      exact ⟨number, Nat.lt_of_lt_of_le below next, named⟩
  · intro id other f g found found' numbered same
    rw [raw?_add] at found found'
    split at found
    · next here =>
      cases found
      split at found'
      · next there => exact here.trans there.symm
      · exact absurd same.symm (unused other g found' numbered)
    · split at found'
      · cases found'
        have named : f.name = m.nameFor name := same
        exact absurd named (unused id f found (named ▸ numbered))
      · exact numbering.apart id other f g found found' numbered same

end Flow.Module

namespace Context

variable {c d : Context} {proto : Prototype} {protos : List Prototype} {id : Nat}

private theorem numbering_declaring (numbering : c.builder.module.Numbering) (each : ∀ proto ∈ protos, proto.Spelled) :
    (c.declaring protos).builder.module.Numbering := by
  induction protos generalizing c with
  | nil => exact numbering
  | cons proto protos ih =>
    obtain ⟨head, others⟩ := List.forall_mem_cons.mp each
    refine ih (c := c.declare proto) (numbering.add ?_) others
    cases anonymous : proto.isAnonymous with
    | true => exact .inl anonymous
    | false => exact .inr (head.named anonymous)

theorem Declarable.spelled (fresh : c.Declarable protos) (spelled : c.Spelled) : ∀ proto ∈ protos, proto.Spelled := by
  induction protos generalizing c with
  | nil => exact List.forall_mem_nil _
  | cons proto protos ih =>
    obtain ⟨⟨registered, _⟩, others⟩ := fresh
    have rest := ih (c := c.declare proto) others (spelled.declaring [proto])
    exact List.forall_mem_cons.mpr ⟨spelled _ _ registered, rest⟩

theorem Designates.spelled (claims : c.Designates proto id protos) (head : proto.Spelled) :
    ∀ proto ∈ protos, proto.Spelled := by
  cases claims with
  | found named found count => exact List.forall_mem_nil _
  | new missing => exact List.forall_mem_singleton.mpr head

/-! Prototypes under the names of functions. -/

theorem prototype?_registering_self (c : Context) (named : proto.isAnonymous = false) :
    (c.registering proto).prototype? proto.name = some proto := by
  simp [registering, named, prototype?]

theorem prototype?_registering_of_ne (c : Context) {name : String} (apart : name ≠ proto.name) :
    (c.registering proto).prototype? name = c.prototype? name := by
  unfold registering
  split
  · rfl
  · have other : (name == proto.name) = false := by simpa using apart
    simp only [prototype?, List.lookup_cons, other]
    induction c.prototypes with
    | nil => rfl
    | cons entry entries ih => grind

/-- Each live function with a name has a prototype with as many parameters. -/
def Covered (c : Context) : Prop :=
  ∀ id f, c.builder.module.raw? id = some f → f.removed = false → ¬ Numbered f.name →
    ∃ proto, c.prototype? f.name = some proto ∧ proto.params.length = f.params.length

private theorem Covered.thins (covered : c.Covered) (thins : c.builder.module.Thins d.builder.module)
    (same : d.prototypes = c.prototypes) : d.Covered := by
  intro id g found live named
  obtain ⟨f, found, name, params, lives⟩ := thins.origin id g found
  rw [prototype?, same, ← name, ← params]
  exact covered id f found (lives live) (name ▸ named)

theorem Covered.declare (covered : c.Covered)
    (known : proto.isAnonymous = true ∨ c.prototype? proto.name = some proto) : (c.declare proto).Covered := by
  intro id f found live named
  rw [raw?_declare] at found
  split at found
  · cases found
    cases empty : proto.name.isEmpty with
    | true =>
      have numbered : Numbered (c.builder.module.nameFor proto.name) := by
        rw [Module.nameFor, if_pos empty]
        exact numbered_toString _
      exact absurd numbered named
    | false =>
      have registered : c.prototype? proto.name = some proto := by simpa [Prototype.isAnonymous, empty] using known
      have name : c.builder.module.nameFor proto.name = proto.name := by simp [Module.nameFor, empty]
      refine ⟨proto, ?_, rfl⟩
      show c.prototype? (c.builder.module.nameFor proto.name) = some proto
      rw [name, registered]
  · exact covered id f found live named

theorem Covered.declaring (covered : c.Covered) (fresh : c.Declarable protos) : (c.declaring protos).Covered := by
  induction protos generalizing c with
  | nil => exact covered
  | cons proto protos ih =>
    obtain ⟨⟨registered, _⟩, others⟩ := fresh
    exact ih (c := c.declare proto) (covered.declare (.inr registered)) others

theorem Covered.registering (covered : c.Covered)
    (same : ∀ id f, c.builder.module.raw? id = some f → f.removed = false → ¬ Numbered f.name → f.name = proto.name →
      proto.isAnonymous = false → proto.params.length = f.params.length) : (c.registering proto).Covered := by
  intro id f found live named
  rw [registering_builder] at found
  cases anonymous : proto.isAnonymous with
  | true =>
    rw [Context.registering, if_pos anonymous]
    exact covered id f found live named
  | false =>
    by_cases here : f.name = proto.name
    · refine ⟨proto, ?_, same id f found live named here anonymous⟩
      rw [here]
      exact c.prototype?_registering_self anonymous
    · rw [c.prototype?_registering_of_ne here]
      exact covered id f found live named

/-- The head of a form agrees with the function it stands for, found or new. -/
theorem Covered.designates (covered : c.Covered) {lost : List Nat} (traced : c.builder.module.Traced lost)
    (claims : c.Designates proto id protos) : ((c.declaring protos).registering proto).Covered := by
  cases claims with
  | found _ found count =>
    refine Covered.registering (c := c) covered fun other f known live named same _ => ?_
    have here := (traced.found other f known named live).symm.trans (same ▸ (find?_eq_some.mp found).2)
    cases here
    rw [← count, Builder.paramCount, Module.paramCount, known]
  | new missing =>
    rw [← declaring_registering]
    refine Covered.declare (c := c.registering proto) (covered.registering ?_) ?_
    · intro other f known live named same anonymous
      have found := find?_eq_some.mpr ⟨anonymous, same ▸ traced.found other f known named live⟩
      simp [anonymous, found] at missing
    · cases anonymous : proto.isAnonymous with
      | true => exact .inl rfl
      | false => exact .inr (c.prototype?_registering_self anonymous)

end Context

namespace Lowering.Attempt

variable {c : Context} {proto : Prototype} {body : Expr} (attempt : Attempt c proto body)

private theorem spelled_declared (spelled : c.Spelled) (head : proto.Spelled) :
    ∀ proto ∈ attempt.before ++ attempt.meanwhile, proto.Spelled := by
  have begun : (c.defining attempt.before proto attempt.scope).Spelled :=
    (spelled.declaring attempt.before).registering head
  exact List.forall_mem_append.mpr ⟨attempt.claims.spelled head, attempt.fresh.spelled begun⟩

/-- What lowering the body of a definition does to the functions that are there by then. -/
theorem thins (attempt : Attempt c proto body) (pristine : c.Pristine) :
    (c.declaring (attempt.before ++ attempt.meanwhile)).builder.module.Thins
      (definition proto body c).2.builder.module := by
  rw [attempt.runs c (.refl c) pristine, ← builder_defining]
  cases attempt.result with
  | ok value =>
    refine (Module.thins_withBody _ attempt.id _).trans (Module.thins_modify _ attempt.id ?_ ?_ ?_)
    · exact fun f => (Pass.kept_runAll _ f).name
    · exact fun f => (Pass.kept_runAll _ f).params
    · intro f live
      exact (congrArg Head.removed (Pass.kept_runAll _ f).head).symm.trans live
  | error reason => exact (Module.thins_withBody _ attempt.id _).trans (Module.thins_remove _ attempt.id)

private theorem covered (attempt : Attempt c proto body) (pristine : c.Pristine) (covered : c.Covered) {lost : List Nat}
    (traced : c.builder.module.Traced lost) : (definition proto body c).2.Covered := by
  have begun : (c.defining attempt.before proto attempt.scope).Covered := covered.designates traced attempt.claims
  have whole := begun.declaring attempt.fresh
  refine whole.thins ?_ ?_
  · rw [Context.declaring_defining, builder_defining]
    exact attempt.thins pristine
  · rw [attempt.prototypes_finished (.refl c) pristine, Context.prototypes_declaring, Context.defining,
      ← Context.declaring_registering]
    exact (Context.prototypes_declaring _ _).symm

end Lowering.Attempt

namespace Context

variable {c : Context} {form : Form} {lost : List Nat}

private theorem numbering_lowering (sound : c.Sound) (spelled : c.Spelled) (written : form.Spelled)
    (numbering : c.builder.module.Numbering) : (form.lowering c).2.builder.module.Numbering := by
  cases form with
  | declaration proto =>
    show (Lowering.declaration proto c).2.builder.module.Numbering
    rcases Lowering.declaration_runs c proto with ⟨reason, runs⟩ | ⟨id, protos, claims, runs⟩
    · rw [runs c (.refl c)]
      exact numbering
    · rw [runs c (.refl c), registering_builder]
      exact numbering_declaring numbering (claims.spelled written.1)
  | definition proto body =>
    show (Lowering.definition proto body c).2.builder.module.Numbering
    rcases Lowering.definition_runs sound.registered sound.pristine proto body with ⟨reason, _, runs⟩ | ⟨⟨attempt⟩⟩
    · rw [runs c (.refl c)]
      exact numbering
    · exact (numbering_declaring numbering (attempt.spelled_declared spelled written.1)).thins
        (attempt.thins sound.pristine)

theorem Covered.lowering (covered : c.Covered) (sound : c.Sound) (traced : c.builder.module.Traced lost) (form : Form) :
    (form.lowering c).2.Covered := by
  cases form with
  | declaration proto =>
    show (Lowering.declaration proto c).2.Covered
    rcases Lowering.declaration_runs c proto with ⟨reason, runs⟩ | ⟨id, protos, claims, runs⟩
    · rw [runs c (.refl c)]
      exact covered
    · rw [runs c (.refl c)]
      exact covered.designates traced claims
  | definition proto body =>
    show (Lowering.definition proto body c).2.Covered
    rcases Lowering.definition_runs sound.registered sound.pristine proto body with ⟨reason, _, runs⟩ | ⟨⟨attempt⟩⟩
    · rw [runs c (.refl c)]
      exact covered
    · exact attempt.covered sound.pristine covered traced

/-- Functions and prototypes go together. -/
structure Coherent (c : Context) : Prop where
  numbering : c.builder.module.Numbering
  covered : c.Covered
  readable : ∀ name proto, c.prototype? name = some proto → proto.Readable

theorem Coherent.new (name : String) (passes : List Pass) : (Context.new (.new name passes)).Coherent := by
  have none : ∀ id, (Context.new (.new name passes)).builder.module.raw? id = none := fun _ => rfl
  refine ⟨⟨fun id f found => ?_, fun id other f g found => ?_⟩, fun id f found => ?_, fun name proto found => ?_⟩
  · rw [none] at found
    contradiction
  · rw [none] at found
    contradiction
  · rw [none] at found
    contradiction
  · simp [prototype?, Context.new] at found

theorem Coherent.deleting (coherent : c.Coherent) (id : Nat) : (c.deleting id).Coherent := by
  have thins := c.builder.module.thins_remove id
  exact ⟨coherent.numbering.thins thins, coherent.covered.thins thins rfl, coherent.readable⟩

theorem Coherent.lowering (coherent : c.Coherent) (sound : c.Sound) (spelled : c.Spelled)
    (traced : c.builder.module.Traced lost) (written : form.Spelled)
    (readable : form.proto.isAnonymous = false → form.proto.Readable) : (form.lowering c).2.Coherent := by
  refine ⟨numbering_lowering sound spelled written coherent.numbering, coherent.covered.lowering sound traced form, ?_⟩
  intro name proto found
  rcases prototype?_lowering sound form found with ⟨rfl, _, named⟩ | old
  · exact readable named
  · exact coherent.readable name proto old

end Context

/-- The head of a form, if it has one, has been read. -/
theorem Form.ReadUnder.readable {table : PrecedenceTable} {tokens : List Token} {form : Form}
    (read : form.ReadUnder table tokens) {source : String} (part : tokens <:+ Token.significant source)
    (named : form.proto.isAnonymous = false) : form.proto.Readable := by
  have parsed : ∀ {proto : Prototype} {inner rest : List Token}, inner <:+ tokens →
      (Prototype.parse inner).result = .ok (proto, rest) → proto.Readable := by
    intro proto inner rest inside head
    obtain ⟨_, same⟩ := Reading.result_eq_ok head
    exact ⟨source, inner, _, inside.trans part, same⟩
  cases read with
  | declaration inside head => exact parsed inside head
  | definition inside head _ => exact parsed inside head
  | bare _ _ => contradiction

namespace Session

variable {σ : Type} [Machine.Output σ] {passes : List Pass} {session : Session σ} {lost : List Nat}

private theorem Reachable.coherent (reachable : session.Reachable passes lost) : session.context.Coherent := by
  induction reachable with
  | new name sink evaluate limits => exact .new name passes
  | unread _ _ _ ih => exact ih
  | @form session lost before source tokens part table form rest read ih =>
    have written := (Form.spelled_next? part read).1 form rfl
    have readable := (Form.readUnder_next? read rfl).readable part
    have evolved := before.evolved
    have lowered := ih.lowering evolved.sound evolved.spelled before.traced written readable
    rcases { session with table := table }.handleForm_context form with same | ⟨_, _, id, _, _, _, same⟩
    · exact same ▸ lowered
    · exact same ▸ lowered.deleting id

private theorem evaluate_handleForm (session : Session σ) (form : Form) :
    (session.handleForm form).2.evaluate = session.evaluate := by
  obtain ⟨_, _, same⟩ := session.handleForm_frame form
  rw [same]
  rfl

/-- With evaluation, the function of a bare expression is removed once it has been run. -/
theorem Evolved.nameless_handleForm (evolved : Evolved session lost) {form : Form} (written : form.Spelled)
    (evaluates : session.evaluate = true) (nameless : session.module.Nameless []) :
    (session.handleForm form).2.module.Nameless [] := by
  have new : ∀ id f, (session.lowering form).module.raw? id = some f → f.removed = false → Numbered f.name →
      form.isBare = true ∧ (form.lowering session.context).1 = .ok id := by
    intro id f found live numbered
    rcases Context.numbered_lowering evolved.sound evolved.spelled written found live numbered with
      ⟨g, old, live', numbered'⟩ | new
    · exact absurd (nameless id g old live' numbered') List.not_mem_nil
    · exact new
  have handles := session.handleForm_handles form
  generalize session.handleForm form = handled at handles ⊢
  intro id f found live numbered
  cases handles with
  | rejected failed =>
    obtain ⟨_, done⟩ := new id f found live numbered
    rw [failed] at done
    contradiction
  | kept done stays well =>
    obtain ⟨bare, _⟩ := new id f found live numbered
    simp [evaluates, bare] at stays
  | @run ran done _ bare =>
    rw [runOnce_eq] at found
    change ((session.lowering form).context.deleting ran).builder.module.raw? id = some f at found
    rw [Context.raw?_deleting] at found
    split at found
    · obtain ⟨g, _, rfl⟩ := Option.map_eq_some_iff.mp found
      contradiction
    · next apart =>
      obtain ⟨_, done'⟩ := new id f found live numbered
      rw [done] at done'
      exact absurd (Except.ok.inj done').symm apart

/-- A session that runs its expressions keeps none of them. -/
theorem Reachable.nameless (reachable : session.Reachable passes lost) (evaluates : session.evaluate = true) :
    session.module.Nameless [] := by
  induction reachable with
  | new name sink evaluate limits =>
    intro id f found
    contradiction
  | unread _ _ _ ih => exact ih evaluates
  | @form session lost before source tokens part table form rest read ih =>
    have written := (Form.spelled_next? part read).1 form rfl
    have evolved := before.evolved
    have same := evaluate_handleForm { session with table := table } form
    have still : session.evaluate = true := same.symm.trans evaluates
    have evolved' : Evolved { session with table := table } lost := ⟨evolved.sound, evolved.spelled, evolved.steps⟩
    exact evolved'.nameless_handleForm written still (ih still)

end Session

variable {σ : Type} [Machine.Output σ] {passes : List Pass} {session : Session σ} {lost : List Nat}

/-- Whatever sources a session has run, the names of its live functions are distinct, each of them that is not the
number of a bare expression has a prototype with as many parameters, the prototypes of operators have one or two
parameters, and with evaluation no bare expression is left. -/
theorem registry_coherent (reachable : session.Reachable passes lost) :
    (∀ id other f g, session.module.function? id = some f → session.module.function? other = some g →
      f.name = g.name → id = other) ∧
    (∀ id f, session.module.function? id = some f → ¬ Numbered f.name →
      ∃ proto, session.context.prototype? f.name = some proto ∧ proto.name = f.name ∧
        proto.params.length = f.params.length) ∧
    (∀ name proto, session.context.prototype? name = some proto →
      (proto.kind = .unary → proto.params.length = 1) ∧ (proto.kind = .binary → proto.params.length = 2)) ∧
    (session.evaluate = true → ∀ id f, session.module.function? id = some f → ¬ Numbered f.name) := by
  have coherent := reachable.coherent
  have traced := reachable.traced
  refine ⟨fun id other f g found found' same => ?_, fun id f found named => ?_, fun name proto found => ?_,
    fun evaluates id f found numbered => ?_⟩
  · obtain ⟨found, live⟩ := Module.raw?_of_function? found
    obtain ⟨found', live'⟩ := Module.raw?_of_function? found'
    by_cases numbered : Numbered f.name
    · exact coherent.numbering.apart id other f g found found' numbered same
    · have first := traced.found id f found numbered live
      have second := traced.found other g found' (same ▸ numbered) live'
      rw [same, second] at first
      exact (Option.some.inj first).symm
  · obtain ⟨found, live⟩ := Module.raw?_of_function? found
    obtain ⟨proto, registered, count⟩ := coherent.covered id f found live named
    exact ⟨proto, registered, (reachable.evolved.sound.registered _ _ registered).1, count⟩
  · have writable := (coherent.readable name proto found).writable
    cases writable <;> simp [Prototype.function, Prototype.unary, Prototype.binary]
  · obtain ⟨found, live⟩ := Module.raw?_of_function? found
    exact absurd (reachable.nameless evaluates id f found live numbered) List.not_mem_nil

/-- Two expressions that are kept, a declaration and an operator that calls it. -/
def quietSource : String := "1; extern f(x); 2; def binary| 5 (a b) f(a) + b"

def quietSession : Session Machine.Sink :=
  (Session.run ⟨.new (.new "m" []), Machine.Sink.unbounded, .standard, false, ⟨100, 10⟩⟩ quietSource).2

theorem registry_coherent_quiet :
    (∃ lost, quietSession.Reachable [] lost) ∧
    quietSession.module.live.map (·.2.name) = ["0", "f", "1", "binary|"] ∧
    (∀ id other f g, quietSession.module.function? id = some f → quietSession.module.function? other = some g →
      f.name = g.name → id = other) ∧
    ∃ f proto, quietSession.module.function? 3 = some f ∧ quietSession.context.prototype? f.name = some proto ∧
      proto.kind = .binary ∧ proto.params.length = f.params.length ∧ proto.params.length = 2 := by
  have start : Session.Reachable [] _ [] := .new "m" Machine.Sink.unbounded false ⟨100, 10⟩
  obtain ⟨more, reached⟩ := start.run quietSource
  have reachable : quietSession.Reachable [] (more ++ []) := reached
  obtain ⟨distinct, covered, operands, _⟩ := registry_coherent reachable
  have name : (quietSession.module.function? 3).map (·.name) = some "binary|" := by decide +kernel
  have kind : (quietSession.context.prototype? "binary|").map (·.kind) = some .binary := by decide +kernel
  obtain ⟨f, found, named⟩ := Option.map_eq_some_iff.mp name
  obtain ⟨proto, registered, _, count⟩ := covered 3 f found (named ▸ Prototype.unnumbered_binaryName '|')
  rw [named] at registered
  have binary : proto.kind = .binary := by simpa [registered] using kind
  refine ⟨⟨_, reachable⟩, by decide +kernel, distinct, f, proto, found, named ▸ registered, binary, count, ?_⟩
  exact (operands _ proto registered).2 binary

end Kaleidoscope
