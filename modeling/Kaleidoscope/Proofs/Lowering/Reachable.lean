import Kaleidoscope.Proofs.Lowering.Finished
import Kaleidoscope.Proofs.Pass.Kept

/-!
What lowering one form does to a context, and what holds of every context that lowering forms leads to.
-/

namespace Kaleidoscope

open Kaleidoscope.Flow

namespace Context

/-- The contexts that lowering forms of some kind leads to, from an empty module on. Functions may be removed in
between. -/
inductive Reachable (passes : List Pass) (allowed : Form → Prop) : Context → Prop where
  | new (name : String) : Reachable passes allowed (.new (.new name passes))
  | form {c : Context} (before : Reachable passes allowed c) (form : Form) (fits : allowed form) :
      Reachable passes allowed (form.lowering c).2
  | delete {c : Context} (before : Reachable passes allowed c) (id : Nat) : Reachable passes allowed (c.deleting id)

/-- What holds between forms. -/
structure Sound (c : Context) : Prop where
  registered : c.Registered
  pristine : c.Pristine

end Context

namespace Lowering

variable {c : Context} {proto : Prototype}

/-- A declaration is in conflict with an earlier one, or there is a function for it afterwards. -/
theorem declaration_runs (c : Context) (proto : Prototype) :
    (∃ reason, ∀ d, c.Alike d → declaration proto d = (.error reason, d)) ∨
      ∃ id protos, c.Designates proto id protos ∧
        ∀ d, c.Alike d → declaration proto d = (.ok id, (d.declaring protos).registering proto) := by
  have registers : ∀ {d after : Context} {id : Nat}, declare proto d = (.ok id, after) →
      declaration proto d = (.ok id, after.registering proto) := fun declared => by
    rw [declaration, bind_apply, declared]
    dsimp only
    rw [bind_apply, register_apply]
    rfl
  by_cases missing : proto.isAnonymous = true ∨ c.builder.find? proto.name = none
  · refine .inr ⟨c.size, [proto], .new missing, fun d alike => registers ?_⟩
    rw [declare_apply_new (by rwa [← alike.find?]), alike.size]
    rfl
  · rw [not_or, Bool.not_eq_true] at missing
    obtain ⟨named, missing⟩ := missing
    obtain ⟨id, found⟩ := Option.ne_none_iff_exists'.mp missing
    have run : ∀ d, c.Alike d → declare proto d =
        if c.builder.paramCount id = proto.params.length then (.ok id, d)
        else (.error (.conflictingDeclaration proto.name), d) := fun d alike => by
      simp [declare_apply, named, ← alike.find?, found, alike.paramCount]
    by_cases count : c.builder.paramCount id = proto.params.length
    · refine .inr ⟨id, [], .found named found count, fun d alike => registers ?_⟩
      rw [run d alike, if_pos count]
      rfl
    · refine .inl ⟨.conflictingDeclaration proto.name, fun d alike => ?_⟩
      rw [declaration, bind_apply, run d alike, if_neg count]

end Lowering

namespace Context

variable {c : Context}

theorem raw?_declare (c : Context) (proto : Prototype) (id : Nat) :
    (c.declare proto).builder.module.raw? id =
      if id = c.size then some (.declared (c.builder.module.nameFor proto.name) proto.params)
      else c.builder.module.raw? id :=
  Module.raw?_add _ _ _ _

private theorem raw?_declaring (protos : List Prototype) (c : Context) (id : Nat) :
    (c.declaring protos).builder.module.raw? id = c.builder.module.raw? id ∨
      ∃ name params, (c.declaring protos).builder.module.raw? id = some (.declared name params) := by
  induction protos generalizing c with
  | nil => exact .inl rfl
  | cons proto protos ih =>
    rcases ih (c.declare proto) with same | declared
    · rw [raw?_declare] at same
      by_cases new : id = c.size
      · exact .inr ⟨_, _, same.trans (if_pos new)⟩
      · exact .inl (same.trans (if_neg new))
    · exact .inr declared

theorem Pristine.declaring (pristine : c.Pristine) (protos : List Prototype) : (c.declaring protos).Pristine := by
  intro id f found live bodiless
  rcases raw?_declaring protos c id with same | ⟨name, params, declared⟩
  · exact pristine id f (same ▸ found) live bodiless
  · rw [declared] at found
    cases found
    rfl

theorem Pristine.registering (pristine : c.Pristine) (proto : Prototype) : (c.registering proto).Pristine := by
  rw [Pristine, registering_builder]
  exact pristine

theorem raw?_deleting (c : Context) (id other : Nat) :
    (c.deleting id).builder.module.raw? other =
      if other = id then (c.builder.module.raw? id).map fun f => { f with removed := true }
      else c.builder.module.raw? other :=
  c.builder.module.raw?_remove id other

/-- A removed function need not be in order. -/
theorem pristine_deleting {id : Nat}
    (others : ∀ other f, other ≠ id → c.builder.module.raw? other = some f → f.removed = false → f.layout = [] →
      f = .declared f.name f.params) : (c.deleting id).Pristine := by
  intro other f found live bodiless
  rw [raw?_deleting] at found
  split at found
  · obtain ⟨g, _, same⟩ := Option.map_eq_some_iff.mp found
    rw [← same] at live
    contradiction
  · next apart => exact others other f apart found live bodiless

theorem raw?_declaring_of_lt (protos : List Prototype) {id : Nat} (inside : id < c.size) :
    (c.declaring protos).builder.module.raw? id = c.builder.module.raw? id := by
  induction protos generalizing c with
  | nil => rfl
  | cons proto protos ih =>
    have added := (raw?_declare c proto id).trans (if_neg (Nat.ne_of_lt inside))
    exact (ih (by rw [size_declare]; omega)).trans added

end Context

namespace Lowering.Attempt

variable {c d : Context} {proto : Prototype} {body : Expr} (attempt : Attempt c proto body)

theorem raw?_defining (alike : c.Alike d) (pristine : d.Pristine) :
    (d.defining (attempt.before ++ attempt.meanwhile) proto attempt.scope).builder.module.raw? attempt.id =
      some (.declared attempt.name attempt.params) := by
  have declared := attempt.declared d alike pristine
  have inside : attempt.id < (d.declaring attempt.before).size := (Array.getElem?_eq_some_iff.mp declared).1
  have later := Context.raw?_declaring_of_lt attempt.meanwhile inside
  rw [← Context.declaring_append, declared] at later
  rw [Context.defining, Context.withScope, Context.registering_builder]
  exact later

theorem builder_defining (d : Context) (protos : List Prototype) (scope : Scope) :
    (d.defining protos proto scope).builder = (d.declaring protos).builder :=
  Context.registering_builder _ proto

/-- A finished definition puts its function in place and leaves the others alone. -/
theorem raw?_finished (alike : c.Alike d) (pristine : d.Pristine) {value : Operand}
    (done : attempt.result = .ok value) (other : Nat) :
    (definition proto body d).2.builder.module.raw? other =
      if other = attempt.id then some (Pass.runAll d.builder.passes (attempt.function value)).1
      else (d.declaring (attempt.before ++ attempt.meanwhile)).builder.module.raw? other := by
  have declared := attempt.raw?_defining alike pristine
  obtain ⟨_, grows⟩ := attempt.wellFormed done
  rw [attempt.runs d alike pristine, done]
  simp only [finished, Context.optimizing, Builder.optimize, Context.building, Module.raw?_modify,
    Module.raw?_withBody, if_true, builder_defining, Context.passes_declaring]
  split
  · rw [builder_defining] at declared
    have same : { Function.declared attempt.name attempt.params with
        insts := (attempt.function value).insts
        blocks := (attempt.function value).blocks
        layout := (attempt.function value).layout } = attempt.function value := by
      rw [← show (attempt.function value).name = attempt.name from grows.name,
        ← show (attempt.function value).params = attempt.params from grows.params]
      exact congrArg (fun removed => { attempt.function value with removed := removed }) grows.removed.symm
    rw [declared]
    exact congrArg (fun f => some (Pass.runAll d.builder.passes f).1) same
  · rfl

/-- What is left of a function whose body could not be lowered. -/
def remains (attempt : Attempt c proto body) : Function :=
  { attempt.last.func with name := attempt.name, params := attempt.params, removed := true }

/-- A definition whose body fails leaves its function behind as a removed one. -/
theorem raw?_failed (alike : c.Alike d) (pristine : d.Pristine) {reason : LoweringError}
    (failed : attempt.result = .error reason) (other : Nat) :
    (definition proto body d).2.builder.module.raw? other =
      if other = attempt.id then some attempt.remains
      else (d.declaring (attempt.before ++ attempt.meanwhile)).builder.module.raw? other := by
  have declared := attempt.raw?_defining alike pristine
  rw [attempt.runs d alike pristine, failed]
  simp only [finished, Context.raw?_deleting, Context.building, Module.raw?_withBody, if_true, declared]
  split
  · rfl
  · rw [builder_defining]

theorem heads_finished (alike : c.Alike d) (pristine : d.Pristine) {value : Operand}
    (done : attempt.result = .ok value) :
    (definition proto body d).2.builder.module.heads =
      (d.declaring (attempt.before ++ attempt.meanwhile)).builder.module.heads := by
  rw [attempt.runs d alike pristine, done]
  simp only [finished, Context.optimizing, Builder.optimize, Context.building]
  rw [Module.heads_modify _ _ fun f => (Pass.kept_runAll _ f).head, Module.heads_withBody, builder_defining]

theorem passes_finished (attempt : Attempt c proto body) (alike : c.Alike d) (pristine : d.Pristine) :
    (definition proto body d).2.builder.passes = d.builder.passes := by
  rw [attempt.runs d alike pristine, ← Context.passes_declaring d (attempt.before ++ attempt.meanwhile),
    ← builder_defining]
  cases attempt.result <;> rfl

theorem prototypes_finished (attempt : Attempt c proto body) (alike : c.Alike d) (pristine : d.Pristine) :
    (definition proto body d).2.prototypes = (d.registering proto).prototypes := by
  have same : (d.defining (attempt.before ++ attempt.meanwhile) proto attempt.scope).prototypes =
      (d.registering proto).prototypes := by
    rw [Context.defining, ← Context.declaring_registering]
    exact Context.prototypes_declaring _ _
  rw [attempt.runs d alike pristine, ← same]
  cases attempt.result <;> rfl

end Lowering.Attempt

namespace Context

variable {c : Context} {passes : List Pass} {allowed : Form → Prop}

/-- The function of a definition that has been lowered. -/
theorem exists_attempt (sound : c.Sound) {proto : Prototype} {body : Expr} {id : Nat}
    (done : (Lowering.definition proto body c).1 = .ok id) :
    ∃ (attempt : Lowering.Attempt c proto body) (value : Operand), attempt.id = id ∧ attempt.result = .ok value ∧
      (Lowering.definition proto body c).2.builder.module.raw? id =
        some (Pass.runAll c.builder.passes (attempt.function value)).1 := by
  rcases Lowering.definition_runs sound.registered sound.pristine proto body with ⟨reason, _, runs⟩ | ⟨⟨attempt⟩⟩
  · rw [runs c (.refl c)] at done
    contradiction
  · have runs := attempt.runs c (.refl c) sound.pristine
    cases result : attempt.result with
    | error reason =>
      rw [runs, result] at done
      contradiction
    | ok value =>
      rw [runs, result] at done
      cases done
      exact ⟨attempt, value, rfl, result,
        (attempt.raw?_finished (.refl c) sound.pristine result _).trans (if_pos rfl)⟩

/-- A finished definition leaves a function that has been through the passes and can be looked up. -/
theorem function?_definition (sound : c.Sound) {proto : Prototype} {body : Expr} {id : Nat}
    (done : (Lowering.definition proto body c).1 = .ok id) :
    ∃ (attempt : Lowering.Attempt c proto body) (value : Operand), attempt.result = .ok value ∧
      (Lowering.definition proto body c).2.builder.module.function? id =
        some (Pass.runAll c.builder.passes (attempt.function value)).1 := by
  obtain ⟨attempt, value, _, result, raw⟩ := exists_attempt sound done
  have live : (Pass.runAll c.builder.passes (attempt.function value)).1.removed = false :=
    (congrArg Head.removed (Pass.kept_runAll _ _).head).trans (attempt.wellFormed result).2.removed
  exact ⟨attempt, value, result, by simp [Module.function?, raw, live]⟩

theorem Sound.new (builder : Builder) (empty : builder.module.functions = #[]) : (Context.new builder).Sound := by
  constructor
  · intro name proto found
    simp [prototype?, Context.new] at found
  · intro id f found
    simp [Context.new, Module.raw?, empty] at found

theorem Sound.deleting (sound : c.Sound) (id : Nat) : (c.deleting id).Sound :=
  ⟨sound.registered, pristine_deleting fun other f _ => sound.pristine other f⟩

theorem Sound.declaration (sound : c.Sound) (proto : Prototype) : (Lowering.declaration proto c).2.Sound := by
  rcases Lowering.declaration_runs c proto with ⟨reason, runs⟩ | ⟨id, protos, _, runs⟩
  · rw [runs c (.refl c)]
    exact sound
  · rw [runs c (.refl c)]
    exact ⟨(sound.registered.declaring protos).registering proto,
      (sound.pristine.declaring protos).registering proto⟩

theorem Sound.definition (sound : c.Sound) (proto : Prototype) (body : Expr) :
    (Lowering.definition proto body c).2.Sound := by
  rcases Lowering.definition_runs sound.registered sound.pristine proto body with ⟨reason, _, runs⟩ | ⟨⟨attempt⟩⟩
  · rw [runs c (.refl c)]
    exact sound
  · have declared := sound.pristine.declaring (attempt.before ++ attempt.meanwhile)
    refine ⟨?_, fun id f found live bodiless => ?_⟩
    · have registered := sound.registered.registering proto
      unfold Registered prototype? at registered ⊢
      rw [attempt.prototypes_finished (.refl c) sound.pristine]
      exact registered
    · cases result : attempt.result with
      | ok value =>
        rw [attempt.raw?_finished (.refl c) sound.pristine result] at found
        split at found
        · obtain ⟨wellFormed, _⟩ := attempt.wellFormed result
          obtain ⟨entry, _, first, _⟩ := wellFormed.entry
          cases found
          rw [(Pass.kept_runAll _ _).layout] at bodiless
          rw [Function.entry?, bodiless] at first
          contradiction
        · exact declared id f found live bodiless
      | error reason =>
        rw [attempt.raw?_failed (.refl c) sound.pristine result] at found
        split at found
        · cases found
          contradiction
        · exact declared id f found live bodiless

theorem Sound.lowering (sound : c.Sound) (form : Form) : (form.lowering c).2.Sound := by
  cases form with
  | declaration proto => exact sound.declaration proto
  | definition proto body => exact sound.definition proto body

private theorem Sound.passes_lowering (sound : c.Sound) (form : Form) :
    (form.lowering c).2.builder.passes = c.builder.passes := by
  cases form with
  | declaration proto =>
    show (Lowering.declaration proto c).2.builder.passes = _
    rcases Lowering.declaration_runs c proto with ⟨reason, runs⟩ | ⟨id, protos, _, runs⟩
    · rw [runs c (.refl c)]
    · rw [runs c (.refl c), registering_builder, passes_declaring]
  | definition proto body =>
    show (Lowering.definition proto body c).2.builder.passes = _
    rcases Lowering.definition_runs sound.registered sound.pristine proto body with ⟨reason, _, runs⟩ | ⟨⟨attempt⟩⟩
    · rw [runs c (.refl c)]
    · exact attempt.passes_finished (.refl c) sound.pristine

theorem Reachable.sound (reachable : Reachable passes allowed c) : c.Sound := by
  induction reachable with
  | new name => exact Sound.new _ rfl
  | form _ form _ ih => exact ih.lowering form
  | delete _ id ih => exact ih.deleting id

theorem Reachable.passes_eq (reachable : Reachable passes allowed c) : c.builder.passes = passes := by
  induction reachable with
  | new name => rfl
  | form before form _ ih => exact (before.sound.passes_lowering form).trans ih
  | delete _ id ih => exact ih

end Context

end Kaleidoscope
