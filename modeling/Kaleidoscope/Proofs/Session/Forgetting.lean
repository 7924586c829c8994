import Kaleidoscope.Proofs.Lowering.Checker
import Kaleidoscope.Proofs.Session.Evolution

/-!
Removing functions without a name. Nothing in a source can name them, so lowering a form comes to the same before and
after one of them is removed.
-/

namespace Kaleidoscope

open Kaleidoscope.Flow

namespace Flow

namespace Module

variable {m : Module} {id other : Nat} {name : String}

/-- There is a function `id`, and it has a number for a name. -/
def Hides (m : Module) (id : Nat) : Prop := ∃ f, m.raw? id = some f ∧ Numbered f.name

theorem Hides.inside (hides : m.Hides id) : id < m.functions.size := by
  obtain ⟨f, found, _⟩ := hides
  exact (Array.getElem?_eq_some_iff.mp found).1

theorem Hides.modify (hides : m.Hides id) (apart : other ≠ id) (change : Function → Function) :
    (m.modify other change).Hides id := by
  obtain ⟨f, found, numbered⟩ := hides
  exact ⟨f, by rw [raw?_modify, if_neg (Ne.symm apart), found], numbered⟩

theorem Hides.add (hides : m.Hides id) (name : String) (params : List String) : (m.add name params).2.Hides id := by
  have inside := hides.inside
  obtain ⟨f, found, numbered⟩ := hides
  exact ⟨f, by rw [raw?_add, if_neg (Nat.ne_of_lt inside), found], numbered⟩

private theorem modify_remove (m : Module) (apart : other ≠ id) (change : Function → Function) :
    (m.remove id).modify other change = (m.modify other change).remove id := by
  simp only [remove, modify, Module.mk.injEq, true_and, and_true]
  apply Array.ext_getElem?
  intro here
  simp only [Array.getElem?_modify]
  by_cases first : other = here
  · subst first
    simp [Ne.symm apart]
  · simp [first]

/-- Names that are no numbers lead to the same functions without a function that has a number for a name. -/
theorem find?_remove (hides : m.Hides id) (named : ¬ Numbered name) : (m.remove id).find? name = m.find? name := by
  obtain ⟨f, found, numbered⟩ := hides
  have view : ∀ n : Module, n.find? name =
      (n.functions.map fun g => !g.removed && g.name == name).findIdx? fun stands => stands := fun n => by
    rw [Array.findIdx?_map]
    rfl
  have other : f.name ≠ name := fun same => named (same ▸ numbered)
  rw [view, view]
  congr 1
  apply Array.ext_getElem?
  intro here
  simp only [remove, modify, Array.getElem?_map, Array.getElem?_modify]
  split
  · next same =>
    subst same
    rw [show m.functions[id]? = some f from found]
    simp [other]
  · rfl

private theorem paramCount_remove (m : Module) (id other : Nat) :
    (m.remove id).paramCount other = m.paramCount other := by
  simp only [paramCount, raw?_remove]
  by_cases same : other = id
  · subst same
    rw [if_pos rfl]
    cases m.raw? other <;> rfl
  · rw [if_neg same]

private theorem hasBody_remove (m : Module) (id other : Nat) : (m.remove id).hasBody other = m.hasBody other := by
  simp only [hasBody, raw?_remove]
  by_cases same : other = id
  · subst same
    rw [if_pos rfl]
    cases m.raw? other <;> rfl
  · rw [if_neg same]

end Module

namespace Builder

variable {α : Type} {b : Builder} {id func : Nat}

/-- The function `id` is none that is being built, and nothing can name it. -/
structure Apart (b : Builder) (id : Nat) : Prop where
  hides : b.module.Hides id
  elsewhere : b.current? ≠ some id

/-- Building goes on in the same way without the function `id`. -/
def Ignores (id : Nat) (build : Builder → α × Builder) : Prop :=
  ∀ b : Builder, b.Apart id → build (b.delete id) = ((build b).1, (build b).2.delete id) ∧ (build b).2.Apart id

theorem Apart.delete (apart : b.Apart id) : b.delete id = { b with module := b.module.remove id } := by
  simp only [Builder.delete, apart.elsewhere, if_false]

section

variable {m : Module} {point : Option BlockRef} {passes : List Pass} (apart : Apart ⟨m, point, passes⟩ id)

include apart

theorem Apart.modify (other : func ≠ id) (change : Function → Function) :
    (⟨(m.remove id).modify func change, point, passes⟩ : Builder) =
        Builder.delete ⟨m.modify func change, point, passes⟩ id ∧
      Apart ⟨m.modify func change, point, passes⟩ id := by
  have changed : Apart ⟨m.modify func change, point, passes⟩ id := ⟨apart.hides.modify other change, apart.elsewhere⟩
  exact ⟨by rw [changed.delete, Module.modify_remove _ other], changed⟩

end

private theorem ignores_emit (id : Nat) (instr : Instr) (name : String) : Ignores id (·.emit instr name) := by
  rintro ⟨m, point, passes⟩ apart
  have unchanged := apart.delete.symm
  cases point with
  | none =>
    rw [apart.delete]
    exact ⟨congrArg (Prod.mk _) unchanged, apart⟩
  | some point =>
    have other : point.func ≠ id := fun same => apart.elsewhere (congrArg some same)
    have found : (m.remove id).raw? point.func = m.raw? point.func := by rw [Module.raw?_remove, if_neg other]
    rw [apart.delete]
    simp only [emit, found]
    cases m.raw? point.func with
    | none => exact ⟨congrArg (Prod.mk _) unchanged, apart⟩
    | some f => exact (apart.modify other _).imp_left (congrArg (Prod.mk _))

private theorem ignores_arith (id : Nat) (op : Arith) (lhs rhs : Operand) (name : String) :
    Ignores id (·.arith op lhs rhs name) := by
  cases lhs with
  | const l =>
    cases rhs with
    | const r => exact fun b apart => ⟨rfl, apart⟩
    | _ => exact ignores_emit id _ name
  | _ => exact ignores_emit id _ name

variable (other : func ≠ id)

include other

private theorem ignores_slot (name : String) : Ignores id (·.slot func name) := by
  rintro ⟨m, point, passes⟩ apart
  have found : (m.remove id).raw? func = m.raw? func := by rw [Module.raw?_remove, if_neg other]
  have unchanged := apart.delete.symm
  rw [apart.delete]
  simp only [slot, found]
  cases m.raw? func with
  | none => exact ⟨congrArg (Prod.mk _) unchanged, apart⟩
  | some f => exact (apart.modify other _).imp_left (congrArg (Prod.mk _))

private theorem ignores_addBlock (name : String) : Ignores id (·.addBlock func name) := by
  rintro ⟨m, point, passes⟩ apart
  have found : (m.remove id).raw? func = m.raw? func := by rw [Module.raw?_remove, if_neg other]
  rw [apart.delete]
  simp only [addBlock, found]
  exact (apart.modify other _).imp_left (congrArg (Prod.mk _))

private theorem ignores_moveToEnd (ref : BlockRef) : Ignores id fun b => ((), b.moveToEnd func ref) := by
  rintro ⟨m, point, passes⟩ apart
  rw [apart.delete]
  exact (apart.modify other _).imp_left (congrArg (Prod.mk _))

private theorem ignores_positionAt (block : Nat) : Ignores id fun b => ((), b.positionAt ⟨func, block⟩) := by
  rintro ⟨m, point, passes⟩ apart
  have moved : Apart ⟨m, some ⟨func, block⟩, passes⟩ id := ⟨apart.hides, fun same => other (Option.some.inj same)⟩
  rw [apart.delete]
  exact ⟨congrArg (Prod.mk _) moved.delete.symm, moved⟩

private theorem ignores_delete : Ignores id fun b => ((), b.delete func) := by
  rintro ⟨m, point, passes⟩ apart
  have gone : (Builder.delete ⟨m, point, passes⟩ func).Apart id := by
    refine ⟨apart.hides.modify other _, ?_⟩
    by_cases here : Builder.current? ⟨m, point, passes⟩ = some func
    · rw [Builder.delete, if_pos here]
      exact fun same => by contradiction
    · rw [Builder.delete, if_neg here]
      exact apart.elsewhere
  rw [apart.delete]
  refine ⟨?_, gone⟩
  rw [gone.delete]
  simp only [Builder.delete, current?]
  rw [Module.remove, Module.modify_remove _ other]
  rfl

private theorem ignores_optimize : Ignores id fun b => ((), b.optimize func) := by
  rintro ⟨m, point, passes⟩ apart
  rw [apart.delete]
  exact (apart.modify other _).imp_left (congrArg (Prod.mk _))

omit other in
private theorem Ignores.discard {build : Builder → α × Builder} (ignores : Ignores id build) :
    Ignores id fun b => ((), (build b).2) :=
  fun b apart => (ignores b apart).imp_left fun same => congrArg (fun built => ((), built.2)) same

end Builder

end Flow

namespace Context

variable {c : Context} {id : Nat}

/-- The function `id` is none that is being built, and nothing can name it. -/
structure Apart (c : Context) (id : Nat) : Prop where
  spelled : c.Spelled
  builder : c.builder.Apart id

private theorem current?_deleting (apart : c.builder.Apart id) :
    (c.deleting id).builder.current? = c.builder.current? := by
  rw [deleting, apart.delete]
  rfl

private theorem find?_deleting {name : String} (hides : c.builder.module.Hides id) (named : ¬ Numbered name) :
    (c.deleting id).builder.find? name = c.builder.find? name := by
  simp only [deleting, Builder.delete, Builder.find?, Module.find?_remove hides named]

private theorem paramCount_deleting (c : Context) (id other : Nat) :
    (c.deleting id).builder.paramCount other = c.builder.paramCount other :=
  Module.paramCount_remove _ id other

private theorem hasBody_deleting (c : Context) (id other : Nat) :
    (c.deleting id).builder.hasBody other = c.builder.hasBody other :=
  Module.hasBody_remove _ id other

private theorem size_deleting (c : Context) (id : Nat) : (c.deleting id).size = c.size := by
  simp [size, deleting, Builder.delete, Module.remove, Module.modify]

private theorem declare_deleting (hides : c.builder.module.Hides id) (proto : Prototype) :
    (c.deleting id).declare proto = (c.declare proto).deleting id := by
  simp only [declare, deleting, Builder.declare, Builder.delete]
  rw [Module.remove, Module.add_modify hides.inside]
  rfl

/-- What a prototype stands for already. -/
theorem existing_deleting {proto : Prototype} (hides : c.builder.module.Hides id) (spelled : proto.Spelled) :
    (if proto.isAnonymous then none else (c.deleting id).builder.find? proto.name) =
      if proto.isAnonymous then none else c.builder.find? proto.name := by
  cases anonymous : proto.isAnonymous with
  | true => rfl
  | false => exact find?_deleting hides (spelled.named anonymous)

private theorem registering_deleting (c : Context) (proto : Prototype) (id : Nat) :
    (c.deleting id).registering proto = (c.registering proto).deleting id := by
  unfold registering
  split <;> rfl

/-- Building another function does not bring `id` back. -/
theorem building_deleting {func : Nat} (hides : c.builder.module.Hides id) (other : func ≠ id) (site : Site) :
    (c.deleting id).building func site = (c.building func site).deleting id ∧
      (c.building func site).builder.Apart id := by
  have apart : (c.building func site).builder.Apart id :=
    ⟨hides.modify other _, fun same => other (Option.some.inj same)⟩
  have module : (c.builder.module.remove id).withBody func site.func =
      (c.builder.module.withBody func site.func).remove id := Module.modify_remove _ other _
  have deleted : (c.building func site).deleting id =
      { c.building func site with
        builder := { (c.building func site).builder with
          module := (c.builder.module.withBody func site.func).remove id } } :=
    congrArg (fun builder => { c.building func site with builder := builder }) apart.delete
  refine ⟨?_, apart⟩
  rw [deleted, ← module]
  rfl

theorem Designates.apart {proto : Prototype} {func : Nat} {protos : List Prototype}
    (claims : c.Designates proto func protos) (hides : c.builder.module.Hides id) (spelled : proto.Spelled) :
    func ≠ id := by
  rintro rfl
  cases claims with
  | found named found count =>
    obtain ⟨f, held, _, same⟩ := Module.raw?_of_find? (find?_eq_some.mp found).2
    obtain ⟨g, held', numbered⟩ := hides
    cases held.symm.trans held'
    exact spelled.named named (same ▸ numbered)
  | new missing => exact Nat.lt_irrefl _ hides.inside

end Context

theorem Expr.Spelled.children {whole : Expr} (spelled : whole.Spelled) : ∀ part ∈ whole.children, part.Spelled := by
  intro part member
  cases spelled with
  | number | var => contradiction
  | binary symbol left right =>
    simp only [Expr.children, List.mem_cons, List.not_mem_nil, or_false] at member
    rcases member with rfl | rfl
    · exact left
    · exact right
  | unary symbol inner => exact List.mem_singleton.mp member ▸ inner
  | cond tested first second =>
    simp only [Expr.children, List.mem_cons, List.not_mem_nil, or_false] at member
    rcases member with rfl | rfl | rfl
    · exact tested
    · exact first
    · exact second
  | loop first last stride inner =>
    simp only [Expr.children, List.cons_append, List.nil_append, List.mem_cons, Option.mem_toList] at member
    rcases member with rfl | rfl | rfl | same
    · exact first
    · exact last
    · exact inner
    · exact stride part same
  | call named each => exact each part member
  | bind each inner =>
    rcases List.mem_cons.mp member with rfl | bound
    · exact inner
    · obtain ⟨binding, inside, rfl⟩ := List.mem_map.mp bound
      exact each binding inside

namespace Lowering

variable {α β : Type} {id func : Nat}

/-- Lowering goes on in the same way without the function `id`, as long as another one is built. -/
def Blind (id : Nat) (x : Lowering α) : Prop :=
  ∀ c, Context.Apart c id → x (c.deleting id) = ((x c).1, (x c).2.deleting id) ∧ (x c).2.Apart id

section

variable {c : Context} {proto : Prototype} (hides : c.builder.module.Hides id) (spelled : proto.Spelled)

include hides spelled

private theorem declare_deleting :
    declare proto (c.deleting id) = ((declare proto c).1, (declare proto c).2.deleting id) := by
  rw [declare_apply, declare_apply, Context.existing_deleting hides spelled]
  split
  · rw [Context.paramCount_deleting]
    split <;> rfl
  · rw [Context.size_deleting, Context.declare_deleting hides]

private theorem functionToDefine_deleting :
    functionToDefine proto (c.deleting id) =
      ((functionToDefine proto c).1, (functionToDefine proto c).2.deleting id) := by
  rw [functionToDefine_apply, functionToDefine_apply, Context.existing_deleting hides spelled]
  split
  · rw [Context.paramCount_deleting, Context.hasBody_deleting]
    split
    · rfl
    · split <;> rfl
  · rw [Context.size_deleting, Context.declare_deleting hides]

end

namespace Blind

theorem pure (value : α) : Blind id (Pure.pure value) := fun _ apart => ⟨rfl, apart⟩

theorem throw (reason : LoweringError) : Blind id (MonadExcept.throw reason : Lowering α) :=
  fun _ apart => ⟨rfl, apart⟩

theorem bind {x : Lowering α} {k : α → Lowering β} (first : Blind id x) (later : ∀ value, Blind id (k value)) :
    Blind id (x >>= k) := by
  intro c apart
  obtain ⟨same, onward⟩ := first c apart
  rw [bind_apply, bind_apply, same]
  generalize x c = ran at onward ⊢
  obtain ⟨result, d⟩ := ran
  cases result with
  | error reason => exact ⟨rfl, onward⟩
  | ok value => exact later value d onward

theorem emit {build : Builder → α × Builder} (ignores : Builder.Ignores id build) : Blind id (Lowering.emit build) := by
  intro c apart
  obtain ⟨same, onward⟩ := ignores c.builder apart.builder
  rw [emit_apply, emit_apply]
  refine ⟨?_, apart.spelled, onward⟩
  simp only [Context.deleting, same]

theorem update {build : Builder → Builder} (ignores : Builder.Ignores id fun b => ((), build b)) :
    Blind id (Lowering.update build) :=
  emit ignores

theorem perform (instr : Instr) : Blind id (Lowering.update (·.perform instr)) :=
  update (Builder.ignores_emit id instr "").discard

theorem currentFunction {k : Nat → Lowering α} (later : ∀ func, func ≠ id → Blind id (k func)) :
    Blind id (Lowering.currentFunction >>= k) := by
  intro c apart
  rw [bind_apply, bind_apply, currentFunction_apply, currentFunction_apply,
    Context.current?_deleting apart.builder]
  cases current : c.builder.current? with
  | none => exact ⟨rfl, apart⟩
  | some func => exact later func (fun same => apart.builder.elsewhere (same ▸ current)) c apart

/-- A new block belongs to the function it is added to. -/
theorem addBlock {k : BlockRef → Lowering α} (other : func ≠ id) (name : String)
    (later : ∀ block, Blind id (k ⟨func, block⟩)) :
    Blind id (Lowering.emit (·.addBlock func name) >>= k) := by
  intro c apart
  obtain ⟨same, onward⟩ := emit (Builder.ignores_addBlock other name) c apart
  rw [bind_apply, bind_apply, same]
  exact later _ _ onward

theorem lookup (name : String) : Blind id (Lowering.lookup name) := by
  intro c apart
  have scope : (c.deleting id).scope = c.scope := rfl
  rw [lookup_apply, lookup_apply, scope]
  cases c.scope.get? name <;> exact ⟨rfl, apart⟩

theorem withName {name : String} {slot : Operand} {body : Lowering α} (inner : Blind id body) :
    Blind id (Lowering.withName name slot body) := by
  intro c apart
  obtain ⟨same, onward⟩ := inner (c.binding name slot) ⟨apart.spelled, apart.builder⟩
  have moved : (c.deleting id).binding name slot = (c.binding name slot).deleting id := rfl
  have scope : (c.deleting id).scope = c.scope := rfl
  rw [withName_apply, withName_apply, moved, same, scope]
  generalize (body (c.binding name slot)).2 = d at onward ⊢
  cases c.scope.get? name <;> exact ⟨rfl, onward.spelled, onward.builder⟩

theorem declare {proto : Prototype} (spelled : proto.Spelled) : Blind id (Lowering.declare proto) := by
  intro c apart
  refine ⟨declare_deleting apart.builder.hides spelled, ?_⟩
  rw [declare_apply]
  split
  · split <;> exact apart
  · exact ⟨apart.spelled, apart.builder.hides.add _ _, apart.builder.elsewhere⟩

theorem function? {name : String} (named : ¬ Numbered name) : Blind id (Lowering.function? name) := by
  intro c apart
  rw [function?_apply, function?_apply, Context.find?_deleting apart.builder.hides named]
  have seen : (c.deleting id).prototype? name = c.prototype? name := rfl
  rw [seen]
  cases c.builder.find? name with
  | some func => exact ⟨rfl, apart⟩
  | none =>
    cases registered : c.prototype? name with
    | none => exact ⟨rfl, apart⟩
    | some proto =>
      obtain ⟨same, onward⟩ := declare (apart.spelled name proto registered) c apart
      dsimp only
      rw [same]
      generalize Lowering.declare proto c = ran at onward ⊢
      obtain ⟨result, d⟩ := ran
      cases result <;> exact ⟨rfl, onward⟩

theorem operatorFunction {name : String} (named : ¬ Numbered name) (missing : LoweringError) :
    Blind id (Lowering.operatorFunction name missing) := by
  refine (function? named).bind fun found => ?_
  cases found with
  | none => exact .throw missing
  | some callee => exact .pure callee

theorem paramCount (callee : Nat) {k : Nat → Lowering α} (later : ∀ count, Blind id (k count)) :
    Blind id (get >>= fun c => k (c.builder.paramCount callee)) := by
  intro c apart
  show k ((c.deleting id).builder.paramCount callee) (c.deleting id) = _ ∧ _
  rw [Context.paramCount_deleting]
  exact later _ c apart

theorem calleeFor {name : String} (named : ¬ Numbered name) (count : Nat) :
    Blind id (Lowering.calleeFor name count) := by
  refine (function? named).bind fun found => ?_
  cases found with
  | none => exact .throw (.unknownFunction name)
  | some callee =>
    refine paramCount callee (k := fun expected =>
      if expected = count then Pure.pure callee else MonadExcept.throw (.argumentCount name expected count))
      fun expected => ?_
    split
    · exact .pure callee
    · exact .throw _

/-- Lowering that builds other functions and calls none by a number does not miss the function `id`. -/
theorem of_composed {known : String → Option Nat} {names : List String} {x : Lowering α}
    {verdict : Except LoweringError Unit} (composed : Composed (· ≠ id) Expr.Spelled known names x verdict) :
    Blind id x := by
  induction composed with
  | pure value => exact .pure value
  | throw reason => exact .throw reason
  | bind _ _ first later => exact first.bind later
  | emit instr hint => exact .emit (Builder.ignores_emit id instr hint)
  | arith op lhs rhs hint => exact .emit (Builder.ignores_arith id op lhs rhs hint)
  | perform instr => exact .perform instr
  | slot other hint => exact .emit (Builder.ignores_slot other hint)
  | moveToEnd other block => exact .update (Builder.ignores_moveToEnd other block)
  | positionAt other block => exact .update (Builder.ignores_positionAt other block)
  | addBlock other hint _ later => exact .addBlock other hint later
  | currentFunction _ later => exact .currentFunction later
  | lookup name => exact .lookup name
  | withName _ inner => exact inner.withName
  | operatorFunction named missing => exact .operatorFunction named missing
  | calleeFor asked =>
    cases asked with
    | call named _ => exact .calleeFor named _

theorem expr {e : Expr} (spelled : e.Spelled) : Blind id (Lowering.expr e) := by
  have composed : Composed (· ≠ id) Expr.Spelled (fun _ => none) [] (Lowering.expr e) (e.check _ []) :=
    .expr (fun _ spelled => spelled.children) e [] spelled
  exact of_composed composed

theorem finishFunction (other : func ≠ id) {body : Lowering Operand} (inner : Blind id body) :
    Blind id (Lowering.finishFunction func body) := by
  intro c apart
  obtain ⟨same, onward⟩ := inner c apart
  rw [finishFunction_apply, finishFunction_apply, same]
  generalize body c = ran at onward ⊢
  obtain ⟨result, d⟩ := ran
  cases result with
  | error reason =>
    exact ((update (Builder.ignores_delete other)).bind fun _ => .throw reason : Blind id (_ : Lowering Nat)) d onward
  | ok value =>
    exact ((perform (.ret value)).bind fun _ =>
      (update (Builder.ignores_optimize other)).bind fun _ => .pure func) d onward

end Blind

section

variable {c : Context} (sound : c.Sound) (spelled : c.Spelled) (hides : c.builder.module.Hides id)

include hides

private theorem declaration_deleting {proto : Prototype} (head : proto.Spelled) :
    declaration proto (c.deleting id) = ((declaration proto c).1, (declaration proto c).2.deleting id) := by
  rw [declaration, bind_apply, bind_apply, declare_deleting hides head]
  rcases declare proto c with ⟨result, d⟩
  cases result with
  | error reason => rfl
  | ok func =>
    dsimp only
    rw [bind_apply, bind_apply, register_apply, register_apply, Context.registering_deleting]
    rfl

include sound spelled

private theorem definition_deleting {proto : Prototype} {body : Expr} (head : proto.Spelled) (inner : body.Spelled) :
    definition proto body (c.deleting id) = ((definition proto body c).1, (definition proto body c).2.deleting id) := by
  rcases functionToDefine_runs c proto with ⟨reason, _, runs⟩ | ⟨func, protos, claims, bodiless, runs⟩
  · have given := functionToDefine_deleting hides head
    rw [runs c (.refl c)] at given
    rw [definition, bind_apply, bind_apply, given, runs c (.refl c)]
  · obtain ⟨name, params, _, declared⟩ := claims.declared bodiless
    have given := runs c (.refl c)
    have given' := functionToDefine_deleting hides head
    rw [given] at given'
    have other := claims.apart hides head
    have found := declared c (.refl c) sound.pristine
    have found' : ((c.declaring protos).deleting id).builder.module.raw? func = some (.declared name params) := by
      rw [Context.raw?_deleting, if_neg other, found]
    rw [definition_apply (Array.getElem?_eq_some_iff.mp found).1 name params found proto body given,
      definition_apply (Array.getElem?_eq_some_iff.mp found').1 name params found' proto body given',
      Context.registering_deleting]
    generalize (Site.opened name params).bindParams proto.params 0 [] = start
    obtain ⟨site, scope⟩ := start
    have begun : (c.defining protos proto scope).Spelled := (spelled.declaring protos).registering head
    have kept : (c.defining protos proto scope).builder.module.Hides id := by
      rw [Attempt.builder_defining]
      obtain ⟨f, hidden, numbered⟩ := hides
      exact ⟨f, (Context.raw?_declaring_of_lt protos (Array.getElem?_eq_some_iff.mp hidden).1).trans hidden, numbered⟩
    obtain ⟨same, apart⟩ := Context.building_deleting kept other site
    have ready : ((c.defining protos proto scope).building func site).Apart id := ⟨begun, apart⟩
    exact (congrArg _ same).trans (Blind.finishFunction other (.expr inner) _ ready).1

/-- It makes no difference whether a function without a name is removed before a form is lowered or after. -/
theorem lowering_deleting {form : Form} (written : form.Spelled) :
    form.lowering (c.deleting id) = ((form.lowering c).1, (form.lowering c).2.deleting id) := by
  cases form with
  | declaration proto => exact declaration_deleting hides written.1
  | definition proto body => exact definition_deleting sound spelled hides written.1 written.2

end

end Lowering

end Kaleidoscope
