import Kaleidoscope.Proofs.Lowering.Background
import Kaleidoscope.Proofs.Lowering.Code

/-!
Reasoning about lowering forwards, one step after the other: what remains to be shown after each step is about the
rest of the program at the next site.
-/

namespace Kaleidoscope

open Kaleidoscope.Flow

namespace Lowering

variable {α β : Type}

/-- `x` builds on at `s` in the background `c`. It ends in the same way and leaves the same function in all
backgrounds like `c`; where it succeeds, `post` holds of the background, the result and the site after it. -/
def Builds (id : Nat) (c : Context) (s : Site) (x : Lowering α) (post : Context → α → Site → Prop) : Prop :=
  ∃ result t news, c.Declarable news ∧
    (∀ d, c.Alike d → x (d.building id s) = (result, (d.declaring news).building id t)) ∧
    ∀ value, result = .ok value → post (c.declaring news) value t

theorem bind_apply (x : Lowering α) (k : α → Lowering β) (c : Context) :
    (x >>= k) c = match x c with
      | (.ok value, d) => k value d
      | (.error reason, d) => (.error reason, d) := by
  simp only [bind, ExceptT.bind, ExceptT.mk, StateT.bind]
  rcases x c with ⟨result, d⟩
  cases result <;> rfl

theorem emit_apply (build : Builder → α × Builder) (c : Context) :
    emit build c = (.ok (build c.builder).1, { c with builder := (build c.builder).2 }) :=
  rfl

theorem update_apply (build : Builder → Builder) (c : Context) :
    update build c = (.ok (), { c with builder := build c.builder }) :=
  rfl

theorem currentFunction_apply (c : Context) :
    currentFunction c = match c.builder.current? with
      | some func => (.ok func, c)
      | none => (.error .noInsertionPoint, c) := by
  simp only [currentFunction, bind_apply]
  show (match c.builder.current? with | some func => _ | none => _ : Lowering Nat) c = _
  cases c.builder.current? <;> rfl

theorem lookup_apply (name : String) (c : Context) :
    lookup name c = match c.scope.get? name with
      | some slot => (.ok slot, c)
      | none => (.error (.unboundVariable name), c) := by
  simp only [lookup, bind_apply]
  show (match c.scope.get? name with | some slot => _ | none => _ : Lowering Operand) c = _
  cases c.scope.get? name <;> rfl

theorem withName_apply (name : String) (slot : Operand) (body : Lowering α) (c : Context) :
    withName name slot body c =
      ((body (c.binding name slot)).1, (body (c.binding name slot)).2.restore name (c.scope.get? name)) :=
  rfl

private theorem run_bind_apply {β : Type} (x : Lowering α) (k : Except LoweringError α → StateM Context β)
    (c : Context) :
    (x.run >>= k) c = k (x c).1 (x c).2 :=
  rfl

/-- One more binding: a failure leaves what was bound before it, and otherwise the name and what it had come last. -/
theorem bindEach_cons_apply (id : Nat) (name : String) (init : Expr) (bindings : List (String × Expr))
    (shadowed : Shadowed) (c : Context) :
    bindEach id ((name, init) :: bindings) shadowed c =
      match (expr init >>= newVariable id name) c with
      | (.ok slot, d) => bindEach id bindings (shadowed ++ [(name, d.scope.get? name)]) (d.binding name slot)
      | (.error reason, d) => ((.error reason, shadowed), d) := by
  have bound : (do
      let value ← expr init
      let slot ← newVariable id name value
      bindName name slot : Lowering (Option Operand)) c =
      match (expr init >>= newVariable id name) c with
      | (.ok slot, d) => (.ok (d.scope.get? name), d.binding name slot)
      | (.error reason, d) => (.error reason, d) := by
    rw [← bind_assoc, bind_apply]
    rcases (expr init >>= newVariable id name) c with ⟨result, d⟩
    cases result <;> rfl
  rw [bindEach, run_bind_apply, bound]
  rcases (expr init >>= newVariable id name) c with ⟨result, d⟩
  cases result <;> rfl

/-- Bindings that were there before are taken back after all others. -/
theorem withBindings_shadowed (id : Nat) (bindings : List (String × Expr)) (shadowed : Shadowed) (body : Lowering α)
    (c : Context) :
    withBindings (bindEach id bindings shadowed) body c =
      ((withBindings (bindEach id bindings []) body c).1,
        (withBindings (bindEach id bindings []) body c).2.restoreAll shadowed) := by
  induction bindings generalizing shadowed c with
  | nil => rfl
  | cons binding bindings ih =>
    obtain ⟨name, init⟩ := binding
    have run (before : Shadowed) : withBindings (bindEach id ((name, init) :: bindings) before) body c =
        match (expr init >>= newVariable id name) c with
        | (.ok slot, d) =>
          withBindings (bindEach id bindings (before ++ [(name, d.scope.get? name)])) body (d.binding name slot)
        | (.error reason, d) => (.error reason, d.restoreAll before) := by
      simp only [withBindings, bindEach_cons_apply]
      rcases (expr init >>= newVariable id name) c with ⟨result, d⟩
      cases result <;> rfl
    rw [run, run]
    rcases (expr init >>= newVariable id name) c with ⟨result, d⟩
    cases result with
    | error reason => rfl
    | ok slot =>
      dsimp only
      rw [ih (shadowed ++ _), ih ([] ++ _)]
      simp [Context.restoreAll]

theorem withBindings_nil (id : Nat) (body : Lowering α) : withBindings (bindEach id [] []) body = body := rfl

/-- Each binding encloses the ones after it, the same name or not. -/
theorem withBindings_cons (id : Nat) (name : String) (init : Expr) (bindings : List (String × Expr))
    (body : Lowering α) :
    withBindings (bindEach id ((name, init) :: bindings) []) body = (do
      let value ← expr init
      let slot ← newVariable id name value
      withName name slot (withBindings (bindEach id bindings []) body)) := by
  funext c
  rw [← bind_assoc, bind_apply]
  unfold withBindings
  rw [bindEach_cons_apply]
  rcases (expr init >>= newVariable id name) c with ⟨result, d⟩
  cases result with
  | error reason => rfl
  | ok slot => exact withBindings_shadowed id bindings [(name, d.scope.get? name)] body (d.binding name slot)

theorem function?_apply (name : String) (c : Context) :
    function? name c = match c.builder.find? name with
      | some id => (.ok (some id), c)
      | none => match c.prototype? name with
        | some proto => match declare proto c with
          | (.ok id, d) => (.ok (some id), d)
          | (.error reason, d) => (.error reason, d)
        | none => (.ok none, c) := by
  simp only [function?, bind_apply]
  show (match c.builder.find? name with | some id => _ | none => _ : Lowering (Option Nat)) c = _
  cases c.builder.find? name with
  | some id => rfl
  | none =>
    cases c.prototype? name with
    | none => rfl
    | some proto =>
      refine (bind_apply (declare proto) (fun id => pure (some id)) c).trans ?_
      dsimp only
      rcases declare proto c with ⟨result, d⟩
      cases result <;> rfl

theorem declare_apply (proto : Prototype) (c : Context) :
    declare proto c =
      match (if proto.isAnonymous then none else c.builder.find? proto.name) with
      | some id =>
        if c.builder.paramCount id = proto.params.length then (.ok id, c)
        else (.error (.conflictingDeclaration proto.name), c)
      | none => (.ok c.size, c.declare proto) := by
  simp only [declare, bind_apply]
  show (match (if proto.isAnonymous then none else c.builder.find? proto.name) with
    | some id => _ | none => _ : Lowering Nat) c = _
  cases (if proto.isAnonymous then none else c.builder.find? proto.name) with
  | none =>
    show (Except.ok (c.builder.module.add proto.name proto.params).1, c.declare proto) = _
    rw [Module.add_eq]
    rfl
  | some id =>
    show (if c.builder.paramCount id = proto.params.length then _ else _ : Lowering Nat) c = _
    dsimp only
    split <;> rfl

/-- The function for a prototype that has none yet. -/
theorem declare_apply_new {proto : Prototype} {c : Context}
    (missing : proto.isAnonymous = true ∨ c.builder.find? proto.name = none) :
    declare proto c = (.ok c.size, c.declare proto) := by
  have absent : (if proto.isAnonymous then none else c.builder.find? proto.name) = none := by
    rcases missing with anonymous | missing
    · simp [anonymous]
    · simp [missing]
  rw [declare_apply, absent]

namespace Builds

variable {id : Nat} {c : Context} {s : Site} {post : Context → β → Site → Prop}

theorem pure {value : β} (holds : post c value s) : Builds id c s (Pure.pure value) post :=
  ⟨.ok value, s, [], trivial, fun _ _ => rfl, fun _ same => by cases same; exact holds⟩

theorem throw (reason : LoweringError) : Builds id c s (MonadExcept.throw reason : Lowering β) post :=
  ⟨.error reason, s, [], trivial, fun _ _ => rfl, fun _ same => by cases same⟩

theorem via {x : Lowering α} {k : α → Lowering β} (middle : Context → α → Site → Prop)
    (first : Builds id c s x middle)
    (later : ∀ d value t, c.Extends d → middle d value t → Builds id d t (k value) post) :
    Builds id c s (x >>= k) post := by
  obtain ⟨result, t, news, fresh, runs, holds⟩ := first
  cases result with
  | error reason =>
    refine ⟨.error reason, t, news, fresh, fun d alike => ?_, fun _ same => by cases same⟩
    rw [bind_apply, runs d alike]
  | ok value =>
    obtain ⟨result, u, others, fresher, runs', holds'⟩ :=
      later _ value t ⟨news, fresh, rfl⟩ (holds value rfl)
    refine ⟨result, u, news ++ others, fresh.append fresher, fun d alike => ?_, ?_⟩
    · rw [bind_apply, runs d alike, Context.declaring_append]
      exact runs' _ (alike.declaring news)
    · rw [Context.declaring_append]
      exact holds'

theorem mono {x : Lowering β} {stronger : Context → β → Site → Prop} (built : Builds id c s x stronger)
    (weaken : ∀ d value t, c.Extends d → stronger d value t → post d value t) : Builds id c s x post := by
  obtain ⟨result, t, news, fresh, runs, holds⟩ := built
  exact ⟨result, t, news, fresh, runs,
    fun value same => weaken _ value t ⟨news, fresh, rfl⟩ (holds value same)⟩

theorem bind {x : Lowering α} {k : α → Lowering β} {middle : Context → α → Site → Prop}
    (first : Builds id c s x middle)
    (later : ∀ d value t, c.Extends d → middle d value t → Builds id d t (k value) post) :
    Builds id c s (x >>= k) post :=
  via middle first later

/-- A step whose effect on the site is known in advance. -/
theorem step {x : Lowering α} {k : α → Lowering β} {value : α} {t : Site}
    (runs : ∀ d, c.Alike d → x (d.building id s) = (.ok value, d.building id t))
    (later : Builds id c t (k value) post) : Builds id c s (x >>= k) post :=
  via (fun d out u => d = c ∧ out = value ∧ u = t)
    ⟨.ok value, t, [], trivial, runs, fun _ same => by cases same; exact ⟨rfl, rfl, rfl⟩⟩
    fun _ _ _ _ ⟨here, same, site⟩ => by subst here same site; exact later

theorem fail {x : Lowering α} {k : α → Lowering β} (reason : LoweringError)
    (runs : ∀ d, c.Alike d → x (d.building id s) = (.error reason, d.building id s)) :
    Builds id c s (x >>= k) post :=
  via (fun _ _ _ => False)
    ⟨.error reason, s, [], trivial, runs, fun _ same => by cases same⟩
    fun _ _ _ _ impossible => impossible.elim

/-- The same for the last step. -/
theorem last {x : Lowering β} {value : β} {t : Site}
    (runs : ∀ d, c.Alike d → x (d.building id s) = (.ok value, d.building id t)) (holds : post c value t) :
    Builds id c s x post :=
  ⟨.ok value, t, [], trivial, runs, fun _ same => by cases same; exact holds⟩

end Builds

section

variable {id : Nat} {c : Context} {s : Site}

theorem emit_runs {build : Builder → α × Builder} {value : α} {t : Site} (inside : id < c.size)
    (built : ∀ d : Context, id < d.size →
      build (d.building id s).builder = (value, (d.building id t).builder)) :
    ∀ d, c.Alike d → emit build (d.building id s) = (.ok value, d.building id t) := by
  intro d alike
  rw [emit_apply, built d (alike.size ▸ inside)]
  rfl

theorem update_runs {build : Builder → Builder} {t : Site} (inside : id < c.size)
    (built : ∀ d : Context, id < d.size → build (d.building id s).builder = (d.building id t).builder) :
    ∀ d, c.Alike d → update build (d.building id s) = (.ok (), d.building id t) := by
  intro d alike
  rw [update_apply, built d (alike.size ▸ inside)]
  rfl

theorem perform_runs (inside : id < c.size) (instr : Instr) :
    ∀ d, c.Alike d →
      update (·.perform instr) (d.building id s) = (.ok (), d.building id (s.push instr "")) :=
  update_runs inside fun _ here => congrArg Prod.snd (Context.emit_building here instr "")

theorem currentFunction_runs :
    ∀ d, c.Alike d → currentFunction (d.building id s) = (.ok id, d.building id s) :=
  fun _ _ => rfl

variable {post : Context → α → Site → Prop}

theorem Builds.lookup {name : String} {k : Operand → Lowering α}
    (later : ∀ slot, c.scope.get? name = some slot → Builds id c s (k slot) post) :
    Builds id c s (Lowering.lookup name >>= k) post := by
  have same : ∀ d, c.Alike d → (d.building id s).scope.get? name = c.scope.get? name :=
    fun d alike => congrArg (·.get? name) alike.scope.symm
  cases found : c.scope.get? name with
  | some slot =>
    refine .step (fun d alike => ?_) (later slot found)
    rw [lookup_apply, same d alike, found]
  | none =>
    refine .fail (.unboundVariable name) fun d alike => ?_
    rw [lookup_apply, same d alike, found]

theorem Builds.withName {name : String} {slot : Operand} {body : Lowering α}
    (inner : Builds id (c.binding name slot) s body fun d value t => post (d.withScope c.scope) value t) :
    Builds id c s (Lowering.withName name slot body) post := by
  obtain ⟨result, t, news, fresh, runs, holds⟩ := inner
  refine ⟨result, t, news, fresh.withScope, fun d alike => ?_, fun value same => ?_⟩
  · have run := runs (d.binding name slot)
      ⟨by simp [Context.binding, Context.withScope, alike.scope], alike.prototypes, alike.heads, alike.bodies,
        alike.nextAnonymous⟩
    have same : (d.building id s).binding name slot = (d.binding name slot).building id s := rfl
    have scope : (d.building id s).scope = ((d.declaring news).building id t).scope :=
      (d.scope_declaring news).symm
    rw [withName_apply, same, run, Context.declaring_binding, scope]
    exact congrArg (Prod.mk result) (((d.declaring news).building id t).restore_binding name slot)
  · have kept := holds value same
    rw [Context.declaring_binding] at kept
    have back : ((c.declaring news).binding name slot).withScope c.scope = c.declaring news :=
      congrArg (c.declaring news).withScope (c.scope_declaring news).symm
    rwa [back] at kept

/-- Looking up a function finds one that is there under its name, declares one, or finds none. -/
theorem Builds.function? {name : String} {k : Option Nat → Lowering α} (registered : c.Registered)
    (inside : id < c.size)
    (there : ∀ d callee, c.Extends d → d.builder.find? name = some callee → Builds id d s (k (some callee)) post)
    (missing : Builds id c s (k none) post) :
    Builds id c s (Lowering.function? name >>= k) post := by
  cases found : c.builder.find? name with
  | some callee =>
    refine .step (fun d alike => ?_) (there c callee (.refl c) found)
    rw [function?_apply, Context.find?_building, ← alike.find?, found]
  | none =>
    cases seen : c.prototype? name with
    | none =>
      refine .step (fun d alike => ?_) missing
      rw [function?_apply, Context.find?_building, ← alike.find?, found, Context.prototype?_building,
        ← alike.prototype?, seen]
    | some proto =>
      obtain ⟨same, named⟩ := registered name proto seen
      subst same
      refine .via (fun d out t => d = c.declare proto ∧ out = some c.size ∧ t = s)
        ⟨.ok (some c.size), s, [proto], ⟨⟨seen, named, found⟩, trivial⟩, fun d alike => ?_, fun _ same => ?_⟩
        fun d out t grown ⟨here, same, site⟩ => ?_
      · rw [function?_apply, Context.find?_building, ← alike.find?, found, Context.prototype?_building,
          ← alike.prototype?, seen]
        have absent : (d.building id s).builder.find? proto.name = none := by
          rw [Context.find?_building, ← alike.find?, found]
        have declared : (d.building id s).declare proto = (d.declare proto).building id s := by
          rw [Context.declare, Context.declare_building (alike.size ▸ inside)]
          rfl
        have size : (d.building id s).size = c.size := by
          rw [alike.size]
          exact Module.size_withBody _ _ _
        simp only [declare_apply_new (.inr absent), declared, size]
        rfl
      · cases same
        exact ⟨rfl, rfl, rfl⟩
      · subst here same site
        exact there _ _ grown (Context.find?_declare_new named found)

end

end Lowering

end Kaleidoscope
