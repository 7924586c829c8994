import Kaleidoscope.Proofs.Lowering.Checker
import Kaleidoscope.Proofs.Lowering.Definition

/-!
Lowering comes to what the checker says. That needs a function under construction, and the functions to call and the
names in scope that the checker is told of; lowering keeps all of these as they are.
-/

namespace Kaleidoscope

open Kaleidoscope.Flow

namespace Flow.Builder

/-- A step of building that keeps the heads of all functions and does not lose the insertion point. -/
structure Steady (b d : Builder) : Prop where
  heads : d.module.heads = b.module.heads
  placed : b.current?.isSome → d.current?.isSome

variable (b : Builder)

private theorem steady_modify (id : Nat) {change : Function → Function} (kept : ∀ f, (change f).head = f.head) :
    b.Steady { b with module := b.module.modify id change } :=
  ⟨b.module.heads_modify id kept, fun placed => placed⟩

private theorem steady_emit (instr : Instr) (name : String) : b.Steady (b.emit instr name).2 := by
  unfold emit
  split
  · exact ⟨rfl, fun placed => placed⟩
  · split
    · exact ⟨rfl, fun placed => placed⟩
    · exact b.steady_modify _ fun _ => rfl

private theorem steady_arith (op : Arith) (lhs rhs : Operand) (name : String) :
    b.Steady (b.arith op lhs rhs name).2 := by
  unfold arith
  split
  · exact ⟨rfl, fun placed => placed⟩
  · exact b.steady_emit _ _

private theorem steady_slot (id : Nat) (name : String) : b.Steady (b.slot id name).2 := by
  unfold slot
  split
  · exact ⟨rfl, fun placed => placed⟩
  · refine b.steady_modify _ fun f => ?_
    simp only [Function.addSlot]
    split <;> rfl

theorem steady_addBlock (id : Nat) (name : String) : b.Steady (b.addBlock id name).2 :=
  b.steady_modify id fun _ => rfl

private theorem steady_moveToEnd (id : Nat) (ref : BlockRef) : b.Steady (b.moveToEnd id ref) :=
  b.steady_modify id fun _ => rfl

private theorem steady_positionAt (ref : BlockRef) : b.Steady (b.positionAt ref) := ⟨rfl, fun _ => rfl⟩

end Flow.Builder

namespace Flow.Module

private theorem find?_add (m : Module) (name : String) (params : List String) (other : String) :
    (m.add name params).2.find? other =
      (m.find? other).or (if other = m.nameFor name then some m.functions.size else none) := by
  simp only [add_eq, find?, Array.findIdx?_push, Function.declared]
  by_cases same : other = m.nameFor name
  · simp [same]
  · simp [same, Ne.symm same]

private theorem isEmpty_nameFor (m : Module) (name : String) : (m.nameFor name).isEmpty = false := by
  unfold nameFor
  split
  · simp
  · next named => simpa using named

end Flow.Module

namespace Context

/-- The number of parameters of a function that can be called: one that is there, or one that has a prototype. -/
def arity? (c : Context) (name : String) : Option Nat :=
  match c.builder.find? name with
  | some id => some (c.builder.paramCount id)
  | none => (c.prototype? name).map (·.params.length)

/-- A context in which a function is being built, with these functions to call and these names in scope. -/
structure Shows (known : String → Option Nat) (names : List String) (c : Context) : Prop where
  registered : c.Registered
  placed : c.builder.current?.isSome
  functions : ∀ name, c.arity? name = known name
  scope : ∀ name, (c.scope.get? name).isSome ↔ name ∈ names

variable {c : Context} {known : String → Option Nat} {names : List String} {proto : Prototype}

private theorem paramCount_declare (c : Context) (proto : Prototype) :
    (c.declare proto).builder.paramCount c.size = proto.params.length := by
  have declared := (Module.raw?_add c.builder.module proto.name proto.params c.size).trans (if_pos rfl)
  simp [Builder.paramCount, Module.paramCount, Context.declare, Builder.declare, declared, Function.declared]

/-- A new declaration is found under its name, unless a function of that name was there before it. -/
theorem arity?_declare (c : Context) (proto : Prototype) (name : String) :
    (c.declare proto).arity? name =
      if c.builder.find? name = none ∧ name = c.builder.module.nameFor proto.name then some proto.params.length
      else c.arity? name := by
  have added : (c.declare proto).builder.find? name =
      (c.builder.find? name).or
        (if name = c.builder.module.nameFor proto.name then some c.size else none) := by
    simp only [Builder.find?, Context.declare, Builder.declare, Module.find?_add]
    by_cases empty : name.isEmpty = true
    · have other : name ≠ c.builder.module.nameFor proto.name := by
        intro same
        rw [same, Module.isEmpty_nameFor] at empty
        contradiction
      simp [empty, other]
    · simp only [empty]
      rfl
  unfold arity?
  rw [added]
  cases found : c.builder.find? name with
  | some id =>
    have count : (c.declare proto).builder.paramCount id = c.builder.paramCount id :=
      Module.paramCount_add (Module.find?_lt (find?_eq_some.mp found).2)
    simp [count]
  | none =>
    by_cases same : name = c.builder.module.nameFor proto.name
    · simp [same, paramCount_declare]
    · simp [same, Context.declare, prototype?]

private theorem Shows.steady {b : Builder} (seen : c.Shows known names) (steady : c.builder.Steady b) :
    Context.Shows known names { c with builder := b } where
  registered := seen.registered
  placed := steady.placed seen.placed
  functions := by
    intro name
    rw [← seen.functions name]
    simp only [arity?, Builder.find?, Module.find?_congr steady.heads, Builder.paramCount,
      Module.paramCount_congr steady.heads, prototype?]
  scope := seen.scope

/-- A declaration made on demand changes nothing that can be seen. -/
theorem Shows.declare (seen : c.Shows known names) (registered : c.prototype? proto.name = some proto)
    (missing : c.builder.find? proto.name = none) : (c.declare proto).Shows known names where
  registered := seen.registered
  placed := seen.placed
  functions := by
    intro name
    have named : proto.name.isEmpty = false := (seen.registered _ _ registered).2
    rw [arity?_declare, ← seen.functions name]
    split
    · next added =>
      obtain ⟨absent, same⟩ := added
      rw [Module.nameFor, named] at same
      cases same
      simp [arity?, missing, registered]
    · rfl
  scope := seen.scope

theorem Shows.push (seen : c.Shows known names) (name : String) (slot : Operand) :
    (c.binding name slot).Shows known (name :: names) := by
  refine ⟨seen.registered, seen.placed, seen.functions, fun other => ?_⟩
  rw [List.mem_cons, ← seen.scope other, binding, withScope, SortedMap.get?_insert]
  split
  · next same => simp [same]
  · next apart => simp [apart]

/-- A name that is given back what it had is in scope if it was before. -/
theorem Shows.pop {d : Context} {name : String} {shadowed : Option Operand} (seen : d.Shows known (name :: names))
    (before : shadowed.isSome ↔ name ∈ names) : (d.restore name shadowed).Shows known names := by
  have scope : ∀ other, ((d.restore name shadowed).scope.get? other).isSome ↔ other ∈ names := by
    intro other
    rw [get?_restore]
    split
    · next same => rw [same, before]
    · next apart => rw [seen.scope other, List.mem_cons, or_iff_right apart]
  rw [restore_eq]
  exact ⟨seen.registered, seen.placed, seen.functions, scope⟩

end Context

namespace Lowering

open Kaleidoscope.Expr

variable {α β : Type} {known : String → Option Nat} {names : List String}

/-- Where a function is being built, with these functions to call and these names in scope, the verdict says whether
`x` succeeds and what error it gives otherwise. -/
def Decides (known : String → Option Nat) (names : List String) (x : Lowering α) (verdict : Except LoweringError Unit) :
    Prop :=
  ∀ c : Context, c.Shows known names → (x c).1.map (fun _ => ()) = verdict ∧ (x c).2.Shows known names

namespace Decides

theorem pure (value : α) : Decides known names (Pure.pure value) (.ok ()) := fun _ seen => ⟨rfl, seen⟩

theorem throw (reason : LoweringError) :
    Decides known names (MonadExcept.throw reason : Lowering α) (.error reason) := fun _ seen => ⟨rfl, seen⟩

theorem bind {x : Lowering α} {k : α → Lowering β} {first later : Except LoweringError Unit}
    (decides : Decides known names x first) (next : ∀ value, Decides known names (k value) later) :
    Decides known names (x >>= k) (first >>= fun _ => later) := by
  intro c seen
  obtain ⟨verdict, after⟩ := decides c seen
  rw [bind_apply]
  generalize x c = ran at verdict after ⊢
  obtain ⟨result, d⟩ := ran
  subst verdict
  cases result with
  | error reason => exact ⟨rfl, after⟩
  | ok value => exact next value d after

theorem emit {build : Builder → α × Builder} (steady : ∀ b : Builder, b.Steady (build b).2) :
    Decides known names (Lowering.emit build) (.ok ()) := fun c seen => ⟨rfl, seen.steady (steady c.builder)⟩

theorem update {build : Builder → Builder} (steady : ∀ b : Builder, b.Steady (build b)) :
    Decides known names (Lowering.update build) (.ok ()) := fun c seen => ⟨rfl, seen.steady (steady c.builder)⟩

theorem currentFunction : Decides known names Lowering.currentFunction (.ok ()) := by
  intro c seen
  obtain ⟨func, placed⟩ := Option.isSome_iff_exists.mp seen.placed
  rw [currentFunction_apply, placed]
  exact ⟨rfl, seen⟩

theorem lookup (name : String) : Decides known names (Lowering.lookup name) (checkName names name) := by
  intro c seen
  rw [lookup_apply, checkName]
  cases found : c.scope.get? name with
  | none =>
    rw [if_neg (by rw [← seen.scope name, found]; simp)]
    exact ⟨rfl, seen⟩
  | some slot =>
    rw [if_pos ((seen.scope name).mp (by rw [found]; rfl))]
    exact ⟨rfl, seen⟩

theorem withName {name : String} {slot : Operand} {body : Lowering α} {verdict : Except LoweringError Unit}
    (inner : Decides known (name :: names) body verdict) :
    Decides known names (Lowering.withName name slot body) verdict := by
  intro c seen
  obtain ⟨same, after⟩ := inner _ (seen.push name slot)
  exact ⟨same, after.pop (seen.scope name)⟩

private theorem function?_missing {c : Context} {name : String} (seen : c.Shows known names)
    (missing : known name = none) : Lowering.function? name c = (.ok none, c) := by
  rw [← seen.functions, Context.arity?] at missing
  split at missing
  · contradiction
  · next absent =>
    rw [Option.map_eq_none_iff] at missing
    rw [function?_apply, absent, missing]

/-- A function that is known is found or gets declared, with the number of parameters that is known. -/
theorem function?_known {c : Context} {name : String} {count : Nat} (seen : c.Shows known names)
    (present : known name = some count) :
    ∃ id d, Lowering.function? name c = (.ok (some id), d) ∧ d.Shows known names ∧ d.builder.paramCount id = count := by
  rw [← seen.functions, Context.arity?] at present
  rw [function?_apply]
  cases found : c.builder.find? name with
  | some id =>
    rw [found] at present
    exact ⟨id, c, rfl, seen, Option.some.inj present⟩
  | none =>
    rw [found] at present
    obtain ⟨proto, registered, rfl⟩ := Option.map_eq_some_iff.mp present
    obtain ⟨rfl, named⟩ := seen.registered name proto registered
    rw [registered]
    refine ⟨c.size, c.declare proto, ?_, seen.declare registered found, c.paramCount_declare proto⟩
    simp only
    rw [declare_apply_new (.inr found)]

theorem operatorFunction (name : String) (missing : LoweringError) :
    Decides known names (Lowering.operatorFunction name missing) (checkOperator known name missing) := by
  intro c seen
  rw [Lowering.operatorFunction, bind_apply, checkOperator]
  cases present : known name with
  | none =>
    rw [function?_missing seen present]
    exact ⟨rfl, seen⟩
  | some count =>
    obtain ⟨id, d, run, after, _⟩ := function?_known seen present
    rw [run]
    exact ⟨rfl, after⟩

theorem calleeFor (name : String) (count : Nat) :
    Decides known names (Lowering.calleeFor name count) (checkCall known name count) := by
  intro c seen
  rw [Lowering.calleeFor, bind_apply, checkCall]
  cases present : known name with
  | none =>
    rw [function?_missing seen present]
    exact ⟨rfl, seen⟩
  | some expected =>
    obtain ⟨id, d, run, after, rfl⟩ := function?_known seen present
    have counted : Decides known names (if d.builder.paramCount id = count then Pure.pure id else
        MonadExcept.throw (.argumentCount name (d.builder.paramCount id) count) : Lowering Nat)
        (if d.builder.paramCount id = count then .ok ()
          else .error (.argumentCount name (d.builder.paramCount id) count)) := by
      split
      · exact .pure id
      · exact .throw _
    rw [run]
    exact counted d after

theorem newVariable (id : Nat) (name : String) (value : Operand) :
    Decides known names (Lowering.newVariable id name value) (.ok ()) :=
  (emit fun b => b.steady_slot _ _).bind fun slot => (update fun b => b.steady_emit _ _).bind fun _ => .pure slot

end Decides

theorem Composed.decides {fit : Expr → Prop} {x : Lowering α} {verdict : Except LoweringError Unit}
    (composed : Composed (fun _ => True) fit known names x verdict) : Decides known names x verdict := by
  induction composed with
  | pure value => exact .pure value
  | throw reason => exact .throw reason
  | bind _ _ first later => exact first.bind later
  | emit instr hint => exact .emit fun b => b.steady_emit instr hint
  | arith op lhs rhs hint => exact .emit fun b => b.steady_arith op lhs rhs hint
  | perform instr => exact .update fun b => b.steady_emit instr ""
  | slot _ hint => exact .emit fun b => b.steady_slot _ hint
  | moveToEnd _ block => exact .update fun b => b.steady_moveToEnd _ block
  | positionAt _ block => exact .update fun b => b.steady_positionAt _
  | addBlock _ hint _ later => exact fun c seen => later _ _ (seen.steady (c.builder.steady_addBlock _ hint))
  | currentFunction _ later => exact Decides.currentFunction.bind fun func => later func trivial
  | lookup name => exact .lookup name
  | withName _ inner => exact inner.withName
  | operatorFunction _ missing => exact .operatorFunction _ missing
  | calleeFor => exact .calleeFor _ _

/-- Lowering an expression comes to what the checker says. -/
theorem decides_expr (e : Expr) (names : List String) : Decides known names (expr e) (e.check known names) := by
  have composed : Composed (fun _ => True) (fun _ => True) known names (expr e) (e.check known names) :=
    .expr (fun _ _ _ _ => trivial) e names trivial
  exact composed.decides

end Lowering

end Kaleidoscope
