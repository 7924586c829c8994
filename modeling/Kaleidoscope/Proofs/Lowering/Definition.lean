import Kaleidoscope.Proofs.Lowering.Emitted

/-!
Lowering definitions: which function gets the body, how building it starts, and what is left when it ends.
-/

namespace Kaleidoscope

open Kaleidoscope.Flow

namespace Flow.Site

/-- A function with nothing but an empty entry. -/
def opened (name : String) (params : List String) : Site :=
  ⟨((Function.declared name params).addBlock "entry").2, 0⟩

/-- Parameters in slots of their own. -/
def bindParams : List String → Nat → Site → Scope → Site × Scope
  | [], _, site, scope => (site, scope)
  | name :: names, index, site, scope =>
    bindParams names (index + 1) (site.newVariable name (.param index)) ((name, site.next) :: scope)

end Flow.Site

namespace Context

def registering (c : Context) (proto : Prototype) : Context :=
  if proto.isAnonymous then
    c
  else
    { c with prototypes := (proto.name, proto) :: c.prototypes.filter (·.1 != proto.name) }

/-- A context without the function `id`. -/
def deleting (c : Context) (id : Nat) : Context := { c with builder := c.builder.delete id }

/-- A context after the passes over the function `id`. -/
def optimizing (c : Context) (id : Nat) : Context := { c with builder := c.builder.optimize id }

/-- Functions without a body have nothing at all in them. -/
def Pristine (c : Context) : Prop :=
  ∀ id f, c.builder.module.raw? id = some f → f.removed = false → f.layout = [] →
    f = .declared f.name f.params

/-- Why a definition is turned down before its body is looked at. -/
inductive Refuses (c : Context) (proto : Prototype) : LoweringError → Prop where
  | redefinition {id : Nat} (named : proto.isAnonymous = false)
      (found : c.builder.find? proto.name = some id) (hasBody : c.builder.hasBody id = true) :
      Refuses c proto (.redefinition proto.name)
  | conflict {id : Nat} (named : proto.isAnonymous = false)
      (found : c.builder.find? proto.name = some id) (bodiless : c.builder.hasBody id = false)
      (count : c.builder.paramCount id ≠ proto.params.length) :
      Refuses c proto (.conflictingDeclaration proto.name)

/-- The function that a prototype stands for, and what has to be declared to have it. -/
inductive Designates (c : Context) (proto : Prototype) : Nat → List Prototype → Prop where
  | found {id : Nat} (named : proto.isAnonymous = false) (found : c.builder.find? proto.name = some id)
      (count : c.builder.paramCount id = proto.params.length) : Designates c proto id []
  | new (missing : proto.isAnonymous = true ∨ c.builder.find? proto.name = none) :
      Designates c proto c.size [proto]

variable {c d : Context} {proto : Prototype} {id : Nat} {protos : List Prototype}

private theorem hasBody_size (c : Context) : c.builder.hasBody c.size = false := by
  have none : c.builder.module.raw? c.size = none := Module.raw?_size _
  simp [Builder.hasBody, Module.hasBody, none]

theorem registering_builder (c : Context) (proto : Prototype) : (c.registering proto).builder = c.builder := by
  unfold registering
  split <;> rfl

private theorem declare_registering (c : Context) (proto other : Prototype) :
    (c.registering proto).declare other = (c.declare other).registering proto := by
  unfold registering
  split <;> rfl

theorem declaring_registering (c : Context) (proto : Prototype) (protos : List Prototype) :
    (c.registering proto).declaring protos = (c.declaring protos).registering proto := by
  induction protos generalizing c with
  | nil => rfl
  | cons other protos ih =>
    show ((c.registering proto).declare other).declaring protos = _
    rw [declare_registering, ih]
    rfl

theorem prototype?_registering {name : String} {other : Prototype}
    (found : (c.registering proto).prototype? name = some other) :
    other = proto ∧ name = proto.name ∧ proto.isAnonymous = false ∨ c.prototype? name = some other := by
  unfold registering at found
  split at found
  · exact .inr found
  · next named =>
    rw [prototype?, List.lookup_cons] at found
    by_cases same : name = proto.name
    · simp only [same, beq_self_eq_true] at found
      exact .inl ⟨(Option.some.inj found).symm, same, by simpa using named⟩
    · have apart : (name == proto.name) = false := by simpa using same
      simp only [apart] at found
      right
      rw [prototype?, ← found]
      induction c.prototypes with
      | nil => rfl
      | cons entry entries ih => grind

theorem Registered.registering (registered : c.Registered) (proto : Prototype) :
    (c.registering proto).Registered := by
  intro name other found
  rcases prototype?_registering found with ⟨same, key, named⟩ | old
  · exact ⟨same ▸ key.symm, same ▸ named⟩
  · exact registered name other old

theorem prototypes_declaring (c : Context) (protos : List Prototype) :
    (c.declaring protos).prototypes = c.prototypes := by
  induction protos generalizing c with
  | nil => rfl
  | cons proto protos ih => exact ih (c.declare proto)

theorem Registered.declaring (registered : c.Registered) (protos : List Prototype) :
    (c.declaring protos).Registered := by
  unfold Registered prototype?
  rw [prototypes_declaring]
  exact registered

/-- The context after the head of a definition and all that its body needed declared. -/
def defining (c : Context) (protos : List Prototype) (proto : Prototype) (scope : Scope) : Context :=
  ((c.declaring protos).registering proto).withScope scope.names

theorem declaring_defining (c : Context) (protos others : List Prototype) (proto : Prototype) (scope : Scope) :
    (c.defining protos proto scope).declaring others = c.defining (protos ++ others) proto scope := by
  rw [defining, declaring_withScope, declaring_registering, ← declaring_append]
  rfl

theorem Alike.registering (alike : c.Alike d) (proto : Prototype) :
    (c.registering proto).Alike (d.registering proto) := by
  unfold Context.registering
  split
  · exact alike
  · exact ⟨alike.scope, by rw [alike.prototypes], alike.heads, alike.bodies, alike.nextAnonymous⟩

theorem Alike.withScope (alike : c.Alike d) (scope : SortedMap String Operand) :
    (c.withScope scope).Alike (d.withScope scope) :=
  ⟨rfl, alike.prototypes, alike.heads, alike.bodies, alike.nextAnonymous⟩

private theorem raw?_eq_head (alike : c.Alike d) {f : Function} (found : c.builder.module.raw? id = some f) :
    ∃ g, d.builder.module.raw? id = some g ∧ g.head = f.head := by
  have same := congrArg (·[id]?) alike.heads
  simp only [Module.heads, Array.getElem?_map, show c.builder.module.functions[id]? = some f from found] at same
  exact Option.map_eq_some_iff.mp same.symm

/-- The function to define is a bare declaration, with the same head in all contexts alike. -/
theorem Designates.declared (claims : c.Designates proto id protos) (bodiless : c.builder.hasBody id = false) :
    ∃ name params,
    params.length = proto.params.length ∧ ∀ d, c.Alike d → d.Pristine →
      (d.declaring protos).builder.module.raw? id = some (.declared name params) := by
  cases claims with
  | found named found count =>
    obtain ⟨inside, live, _⟩ := Array.findIdx?_eq_some_iff_getElem.mp (find?_eq_some.mp found).2
    have raw : c.builder.module.raw? id = some c.builder.module.functions[id] := Array.getElem?_eq_getElem inside
    generalize c.builder.module.functions[id] = f at raw live
    refine ⟨f.name, f.params, ?_, fun d alike pristine => ?_⟩
    · simpa [Builder.paramCount, Module.paramCount, raw] using count
    · obtain ⟨g, raw', head⟩ := raw?_eq_head alike raw
      rw [alike.bodies] at bodiless
      simp only [Function.head, Head.mk.injEq] at head
      obtain ⟨sameName, sameParams, sameRemoved⟩ := head
      have removed : g.removed = false := by
        rw [sameRemoved]
        simpa using (Bool.and_eq_true_iff.mp live).1
      have layout : g.layout = [] := by
        simpa [Builder.hasBody, Module.hasBody, raw', Function.isDeclaration] using bodiless
      rw [← sameName, ← sameParams, ← pristine id g raw' removed layout]
      exact raw'
  | new missing =>
    refine ⟨c.builder.module.nameFor proto.name, proto.params, rfl, fun d alike _ => ?_⟩
    have size : c.size = d.builder.module.functions.size := alike.size
    rw [Module.nameFor, alike.nextAnonymous, size]
    exact (Module.raw?_add _ _ _ _).trans (if_pos rfl)

end Context

namespace Lowering

variable {c : Context} {proto : Prototype}

theorem functionToDefine_apply (proto : Prototype) (c : Context) :
    functionToDefine proto c =
      match (if proto.isAnonymous then none else c.builder.find? proto.name) with
      | some id =>
        if c.builder.hasBody id then (.error (.redefinition proto.name), c)
        else if c.builder.paramCount id = proto.params.length then (.ok id, c)
        else (.error (.conflictingDeclaration proto.name), c)
      | none => (.ok c.size, c.declare proto) := by
  simp only [functionToDefine, bind_apply]
  show (match (if proto.isAnonymous then none else c.builder.find? proto.name) with
    | some id => _ | none => _ : Lowering Nat) c = _
  cases (if proto.isAnonymous then none else c.builder.find? proto.name) with
  | none =>
    show (Except.ok (c.builder.module.add proto.name proto.params).1, c.declare proto) = _
    rw [Module.add_eq]
    rfl
  | some id =>
    show (if c.builder.hasBody id then _ else _ : Lowering Nat) c = _
    dsimp only
    split
    · rfl
    · split <;> rfl

theorem functionToDefine_runs (c : Context) (proto : Prototype) :
    (∃ reason, c.Refuses proto reason ∧ ∀ d, c.Alike d → functionToDefine proto d = (.error reason, d)) ∨
      ∃ id protos, c.Designates proto id protos ∧ c.builder.hasBody id = false ∧
        ∀ d, c.Alike d → functionToDefine proto d = (.ok id, d.declaring protos) := by
  cases anonymous : proto.isAnonymous with
  | true =>
    refine .inr ⟨c.size, [proto], .new (.inl anonymous), c.hasBody_size, fun d alike => ?_⟩
    simp [functionToDefine_apply, anonymous, alike.size, Context.declaring]
  | false =>
    cases found : c.builder.find? proto.name with
    | none =>
      refine .inr ⟨c.size, [proto], .new (.inr found), c.hasBody_size, fun d alike => ?_⟩
      simp [functionToDefine_apply, anonymous, ← alike.find?, found, alike.size, Context.declaring]
    | some id =>
      have run : ∀ d, c.Alike d → functionToDefine proto d =
          if c.builder.hasBody id then (.error (.redefinition proto.name), d)
          else if c.builder.paramCount id = proto.params.length then (.ok id, d)
          else (.error (.conflictingDeclaration proto.name), d) := fun d alike => by
        simp [functionToDefine_apply, anonymous, ← alike.find?, found, alike.bodies, alike.paramCount]
      cases body : c.builder.hasBody id with
      | true => exact .inl ⟨_, .redefinition anonymous found body, fun d alike => by simp [run d alike, body]⟩
      | false =>
        by_cases count : c.builder.paramCount id = proto.params.length
        · refine .inr ⟨id, [], .found anonymous found count, body, fun d alike => ?_⟩
          simp [run d alike, body, count, Context.declaring]
        · exact .inl ⟨_, .conflict anonymous found body count, fun d alike => by simp [run d alike, body, count]⟩

theorem register_apply (proto : Prototype) (c : Context) :
    register proto c = (.ok (), c.registering proto) := by
  unfold register Context.registering
  split <;> rfl

private theorem bindParams_runs {id : Nat} {d : Context} {scope : Scope} (inside : id < d.size)
    (held : d.scope = scope.names) (names : List String) (index : Nat) (s : Site) :
    bindParams id names index (d.building id s) =
      (.ok (), (d.withScope (s.bindParams names index scope).2.names).building id
        (s.bindParams names index scope).1) := by
  induction names generalizing index s d scope with
  | nil => exact congrArg (fun names => (Except.ok (), (d.withScope names).building id s)) held
  | cons name names ih =>
    rw [bindParams, bind_apply, newVariable_runs inside _ _ d (.refl d)]
    exact ih (d := d.binding name s.next) inside (binding_names held name s.next) (index + 1)
      (s.newVariable name (.param index))

theorem finishFunction_apply (id : Nat) (body : Lowering Operand) (c : Context) :
    finishFunction id body c =
      match body c with
      | (.ok value, d) => (.ok id, { d with builder := (d.builder.ret value).optimize id })
      | (.error reason, d) => (.error reason, d.deleting id) := by
  have caught : (tryCatch body fun reason => do
      update (·.delete id)
      throw reason) c =
      match body c with
      | (.ok value, d) => (.ok value, d)
      | (.error reason, d) => (.error reason, d.deleting id) := by
    show (ExceptT.tryCatch body _ : Lowering Operand) c = _
    simp only [ExceptT.tryCatch, ExceptT.mk, bind, StateT.bind]
    rcases body c with ⟨result, d⟩
    cases result <;> rfl
  rw [finishFunction, bind_apply, caught]
  rcases body c with ⟨result, d⟩
  cases result <;> rfl

/-- A definition starts with the entry of its function and with its parameters in scope. -/
theorem definition_apply {id : Nat} {d : Context} (inside : id < d.size) (name : String) (params : List String)
    (pristine : d.builder.module.raw? id = some (.declared name params)) (proto : Prototype) (body : Expr)
    (given : functionToDefine proto c = (.ok id, d)) :
    definition proto body c =
      finishFunction id (expr body)
        (((d.registering proto).withScope
          ((Site.opened name params).bindParams proto.params 0 []).2.names).building id
            ((Site.opened name params).bindParams proto.params 0 []).1) := by
  have same : (d.registering proto).builder = d.builder := Context.registering_builder d proto
  have entry : (d.registering proto).builder.addBlock id "entry" =
      (⟨id, 0⟩, { d.builder with module := d.builder.module.withBody id (Site.opened name params).func }) := by
    rw [same]
    simp only [Builder.addBlock, pristine]
    congr 2
    exact Module.modify_eq_withBody pristine rfl
  have opening : ((d.registering proto).withScope .empty).building id (Site.opened name params) =
      { (d.registering proto) with
        builder := { d.builder with
          module := d.builder.module.withBody id (Site.opened name params).func
          point := some ⟨id, 0⟩ }
        scope := .empty } := by
    rw [Context.building, Context.withScope, same]
    rfl
  have size : id < ((d.registering proto).withScope .empty).size := by
    rw [Context.size, Context.withScope, same]
    exact inside
  rw [definition, bind_apply, given]
  dsimp only
  rw [bind_apply, register_apply]
  dsimp only
  rw [bind_apply, emit_apply, entry]
  dsimp only
  rw [bind_apply, update_apply]
  dsimp only
  rw [bind_apply]
  have started := congrArg (bindParams id proto.params 0 >>= fun _ => finishFunction id (expr body)) opening.symm
  apply started.trans
  rw [bind_apply, bindParams_runs size (show _ = Scope.names [] from rfl)]
  rfl

/-- How a definition whose body has been lowered ends. -/
def finished (c : Context) (id : Nat) (t : Site) : Except LoweringError Operand → Except LoweringError Nat × Context
  | .ok value => (.ok id, (c.building id (t.push (.ret value) "")).optimizing id)
  | .error reason => (.error reason, (c.building id t).deleting id)

/-- A definition that got to its body: the function it works on, all that was declared before and meanwhile, and
how lowering the body ended. It is the same in all contexts alike. -/
structure Attempt (c : Context) (proto : Prototype) (body : Expr) where
  id : Nat
  before : List Prototype
  meanwhile : List Prototype
  name : String
  params : List String
  start : Site
  scope : Scope
  result : Except LoweringError Operand
  last : Site
  claims : c.Designates proto id before
  bodiless : c.builder.hasBody id = false
  count : params.length = proto.params.length
  opens : (Site.opened name params).bindParams proto.params 0 [] = (start, scope)
  fresh : (c.defining before proto scope).Declarable meanwhile
  declared : ∀ d, c.Alike d → d.Pristine →
    (d.declaring before).builder.module.raw? id = some (.declared name params)
  runs : ∀ d, c.Alike d → d.Pristine →
    definition proto body d = finished (d.defining (before ++ meanwhile) proto scope) id last result
  code : ∀ value, result = .ok value → ∀ m, (c.defining (before ++ meanwhile) proto scope).Resolved m →
    Lowers m scope [body] start [value] last

/-- A definition is refused, or its body is lowered from the opened function on. -/
theorem definition_runs (registered : c.Registered) (pristine : c.Pristine) (proto : Prototype) (body : Expr) :
    (∃ reason, c.Refuses proto reason ∧ ∀ d, c.Alike d → definition proto body d = (.error reason, d)) ∨
      Nonempty (Attempt c proto body) := by
  rcases functionToDefine_runs c proto with ⟨reason, refuses, runs⟩ | ⟨id, before, claims, bodiless, runs⟩
  · refine .inl ⟨reason, refuses, fun d alike => ?_⟩
    rw [definition, bind_apply, runs d alike]
  · obtain ⟨name, params, count, declared⟩ := claims.declared bodiless
    rcases opens : (Site.opened name params).bindParams proto.params 0 [] with ⟨start, scope⟩
    have inside : ∀ d, c.Alike d → d.Pristine → id < (d.declaring before).size := fun d alike pristine =>
      (Array.getElem?_eq_some_iff.mp (declared d alike pristine)).1
    have size : ∀ d, (Context.defining d before proto scope).size = (d.declaring before).size := fun d =>
      congrArg (·.module.functions.size) (Context.registering_builder (d.declaring before) proto)
    obtain ⟨result, last, meanwhile, fresh, lowered, built⟩ :=
      expr_emits body id (c.defining before proto scope) start scope
        ((registered.declaring before).registering proto) (size c ▸ inside c (.refl c) pristine) rfl
    refine .inr ⟨⟨id, before, meanwhile, name, params, start, scope, result, last, claims, bodiless, count, opens,
      fresh, declared, fun d alike pristine => ?_, fun value same m resolved => ?_⟩⟩
    · have inside' := inside d alike pristine
      have run := lowered (d.defining before proto scope)
        (((alike.declaring before).registering proto).withScope scope.names)
      rw [definition_apply inside' name params (declared d alike pristine) proto body (runs d alike), opens]
      have begun : ((d.declaring before).registering proto).withScope scope.names = d.defining before proto scope := rfl
      rw [begun, finishFunction_apply, run, Context.declaring_defining]
      cases result with
      | error reason => rfl
      | ok value =>
        have later : id < (d.defining (before ++ meanwhile) proto scope).size := by
          rw [← Context.declaring_defining]
          exact Context.lt_size_declaring _ meanwhile (size d ▸ inside')
        have returns : (Context.building _ id last).builder.emit (.ret value) "" = _ :=
          Context.emit_building later _ _
        simp only [finished, Builder.ret, Builder.perform, returns]
        rfl
    · rw [← Context.declaring_defining] at resolved
      exact built value same m resolved

end Lowering

end Kaleidoscope
