import Kaleidoscope.Lowering.Form
import Kaleidoscope.Proofs.Flow.Heads
import Kaleidoscope.Proofs.Flow.Site

/-!
A context as a background with one function under construction. What is built there does not depend on the bodies
of the other functions, and the background changes by new declarations only.
-/

namespace Kaleidoscope

open Kaleidoscope.Flow

namespace Context

/-- The context while the function `id` is built at `site`. -/
def building (c : Context) (id : Nat) (site : Site) : Context :=
  { c with
    builder :=
      { c.builder with
        module := c.builder.module.withBody id site.func
        point := some ⟨id, site.block⟩ } }

def size (c : Context) : Nat := c.builder.module.functions.size

def declare (c : Context) (proto : Prototype) : Context :=
  { c with builder := (c.builder.declare proto.name proto.params).2 }

/-- The context with functions declared for these prototypes. -/
def declaring (c : Context) (protos : List Prototype) : Context := protos.foldl declare c

/-- Lowering cannot tell the two contexts apart. -/
structure Alike (c d : Context) : Prop where
  scope : c.scope = d.scope
  prototypes : c.prototypes = d.prototypes
  heads : c.builder.module.heads = d.builder.module.heads
  bodies : ∀ id, c.builder.hasBody id = d.builder.hasBody id
  nextAnonymous : c.builder.module.nextAnonymous = d.builder.module.nextAnonymous

/-- Every prototype stands under its name. -/
def Registered (c : Context) : Prop :=
  ∀ name proto, c.prototype? name = some proto → proto.name = name ∧ proto.isAnonymous = false

/-- The context with other variables in scope. -/
def withScope (c : Context) (scope : SortedMap String Operand) : Context := { c with scope := scope }

/-- The context with one more variable in scope. -/
def binding (c : Context) (name : String) (slot : Operand) : Context := c.withScope (c.scope.insert name slot)

variable {c d : Context} {id : Nat} {site : Site}

theorem get?_restore (c : Context) (name other : String) (shadowed : Option Operand) :
    (c.restore name shadowed).scope.get? other = if other = name then shadowed else c.scope.get? other := by
  cases shadowed with
  | none => exact c.scope.get?_erase name other
  | some slot => exact c.scope.get?_insert name other slot

theorem restore_eq (c : Context) (name : String) (shadowed : Option Operand) :
    c.restore name shadowed = c.withScope (c.restore name shadowed).scope := by
  cases shadowed <;> rfl

/-- Giving a name back what it had undoes its last binding. -/
theorem restore_binding (c : Context) (name : String) (slot : Operand) :
    (c.binding name slot).restore name (c.scope.get? name) = c := by
  have scope : ((c.binding name slot).restore name (c.scope.get? name)).scope = c.scope := by
    apply SortedMap.eq_of_get?_eq
    intro other
    rw [get?_restore]
    split
    · next same => rw [same]
    · next apart => exact (c.scope.get?_insert name other slot).trans (if_neg apart)
  rw [restore_eq, scope]
  rfl

theorem Alike.refl (c : Context) : c.Alike c := ⟨rfl, rfl, rfl, fun _ => rfl, rfl⟩

theorem Alike.size (alike : c.Alike d) : c.size = d.size := Module.size_congr alike.heads

theorem Alike.find? (alike : c.Alike d) (name : String) : c.builder.find? name = d.builder.find? name := by
  simp only [Builder.find?, Module.find?_congr alike.heads]

theorem Alike.paramCount (alike : c.Alike d) (id : Nat) : c.builder.paramCount id = d.builder.paramCount id :=
  Module.paramCount_congr alike.heads id

theorem Alike.prototype? (alike : c.Alike d) (name : String) : c.prototype? name = d.prototype? name := by
  simp only [Context.prototype?, alike.prototypes]

theorem prototype?_building (c : Context) (id : Nat) (site : Site) (name : String) :
    (c.building id site).prototype? name = c.prototype? name := rfl

theorem find?_building (c : Context) (id : Nat) (site : Site) (name : String) :
    (c.building id site).builder.find? name = c.builder.find? name := by
  simp only [Builder.find?, building, Module.find?_congr (Module.heads_withBody _ id site.func)]

theorem paramCount_building (c : Context) (id other : Nat) (site : Site) :
    (c.building id site).builder.paramCount other = c.builder.paramCount other :=
  Module.paramCount_congr (Module.heads_withBody _ id site.func) other

private theorem raw?_building (inside : id < c.size) (site : Site) : ∃ f : Function,
    (c.building id site).builder.module.raw? id = some f ∧ f.insts = site.func.insts ∧
      f.blocks = site.func.blocks ∧ f.layout = site.func.layout := by
  have found : c.builder.module.raw? id = some c.builder.module.functions[id] :=
    Array.getElem?_eq_getElem inside
  refine ⟨{ c.builder.module.functions[id] with
    insts := site.func.insts, blocks := site.func.blocks, layout := site.func.layout }, ?_, rfl, rfl, rfl⟩
  rw [building, Module.raw?_withBody, if_pos rfl, found]
  rfl

section

variable (inside : id < c.size)

include inside

theorem emit_building (instr : Instr) (name : String) :
    (c.building id site).builder.emit instr name =
      (site.next, (c.building id (site.push instr name)).builder) := by
  obtain ⟨f, found, insts, _, _⟩ := raw?_building inside site
  have point : (c.building id site).builder.point = some ⟨id, site.block⟩ := rfl
  simp only [Builder.emit, point, found, insts]
  congr 2
  exact Module.modify_withBody _ id site.func fun _ => rfl

theorem arith_building (op : Arith) (lhs rhs : Operand) (name : String) :
    (c.building id site).builder.arith op lhs rhs name =
      ((site.arith op lhs rhs name).1, (c.building id (site.arith op lhs rhs name).2).builder) := by
  cases lhs with
  | const l =>
    cases rhs with
    | const r => rfl
    | _ => exact emit_building inside _ _
  | _ => exact emit_building inside _ _

theorem slot_building (name : String) :
    (c.building id site).builder.slot id name = (site.next, (c.building id (site.addSlot name)).builder) := by
  obtain ⟨f, found, insts, _, _⟩ := raw?_building inside site
  simp only [Builder.slot, found, insts]
  congr 2
  refine Module.modify_withBody _ id site.func fun h => ?_
  simp only [Site.addSlot, Function.addSlot, Function.entry?]
  cases site.func.layout.head? <;> rfl

theorem addBlock_building (name : String) :
    (c.building id site).builder.addBlock id name =
      (⟨id, site.nextBlock⟩, (c.building id (site.addBlock name)).builder) := by
  obtain ⟨f, found, _, blocks, _⟩ := raw?_building inside site
  simp only [Builder.addBlock, found, blocks]
  congr 2
  exact Module.modify_withBody _ id site.func fun _ => rfl

theorem declare_building (name : String) (params : List String) :
    (c.building id site).builder.declare name params =
      ((c.builder.declare name params).1,
        ({ c with builder := (c.builder.declare name params).2 }.building id site).builder) := by
  simp only [Builder.declare, building, Module.add_withBody inside]

end

theorem moveToEnd_building (block : Nat) :
    (c.building id site).builder.moveToEnd id ⟨id, block⟩ =
      (c.building id (site.moveToEnd block)).builder := by
  simp only [Builder.moveToEnd, building]
  congr 1
  exact Module.modify_withBody _ id site.func fun _ => rfl

theorem positionAt_building (block : Nat) :
    (c.building id site).builder.positionAt ⟨id, block⟩ = (c.building id (site.goto block)).builder :=
  rfl

/-- Prototypes that lowering declares on demand: they are registered, and there is no function of their name. -/
def Declarable : Context → List Prototype → Prop
  | _, [] => True
  | c, proto :: protos =>
    (c.prototype? proto.name = some proto ∧ proto.isAnonymous = false ∧
      c.builder.find? proto.name = none) ∧ (c.declare proto).Declarable protos

/-- The functions of the context are the same under their names in `m`. -/
def Resolved (c : Context) (m : Module) : Prop :=
  ∀ name id, c.builder.find? name = some id →
    m.find? name = some id ∧ m.paramCount id = c.builder.paramCount id

/-- `d` is `c` with some functions declared on demand. -/
def Extends (c d : Context) : Prop := ∃ news, c.Declarable news ∧ d = c.declaring news

variable {proto : Prototype} {name : String} {protos : List Prototype}

theorem find?_eq_some {b : Builder} :
    b.find? name = some id ↔ name.isEmpty = false ∧ b.module.find? name = some id := by
  unfold Builder.find?
  cases name.isEmpty <;> simp

private theorem find?_declare (found : c.builder.find? name = some id) :
    (c.declare proto).builder.find? name = some id := by
  obtain ⟨named, found⟩ := find?_eq_some.mp found
  exact find?_eq_some.mpr ⟨named, Module.find?_add_of_some found⟩

theorem find?_declare_new (named : proto.isAnonymous = false) (missing : c.builder.find? proto.name = none) :
    (c.declare proto).builder.find? proto.name = some c.size := by
  refine find?_eq_some.mpr ⟨named, Module.find?_add_new named ?_⟩
  rw [Builder.find?, show proto.name.isEmpty = false from named] at missing
  exact missing

private theorem Resolved.of_declare {m : Module} (resolved : (c.declare proto).Resolved m) : c.Resolved m := by
  intro name id found
  obtain ⟨same, count⟩ := resolved name id (find?_declare found)
  refine ⟨same, count.trans ?_⟩
  exact Module.paramCount_add (Module.find?_lt (find?_eq_some.mp found).2)

theorem size_declare (c : Context) (proto : Prototype) : (c.declare proto).size = c.size + 1 :=
  Module.size_add _ _ _

theorem passes_declaring (c : Context) (protos : List Prototype) :
    (c.declaring protos).builder.passes = c.builder.passes := by
  induction protos generalizing c with
  | nil => rfl
  | cons proto protos ih => exact ih (c.declare proto)

theorem lt_size_declaring (c : Context) (protos : List Prototype) (inside : id < c.size) :
    id < (c.declaring protos).size := by
  induction protos generalizing c with
  | nil => exact inside
  | cons proto protos ih => exact ih (c.declare proto) (by rw [size_declare]; omega)

theorem Alike.declare (alike : c.Alike d) (proto : Prototype) : (c.declare proto).Alike (d.declare proto) := by
  refine ⟨alike.scope, alike.prototypes, ?_, fun id => ?_, ?_⟩
  · simp only [Context.declare, Builder.declare, Module.heads_add, alike.heads, Module.nameFor,
      alike.nextAnonymous]
  · simp only [Context.declare, Builder.declare, Builder.hasBody, Module.hasBody_add]
    exact alike.bodies id
  · simp only [Context.declare, Builder.declare, Module.add_eq, alike.nextAnonymous]

theorem Alike.declaring (alike : c.Alike d) (protos : List Prototype) :
    (c.declaring protos).Alike (d.declaring protos) := by
  induction protos generalizing c d with
  | nil => exact alike
  | cons proto protos ih => exact ih (alike.declare proto)

theorem declaring_withScope (c : Context) (scope : SortedMap String Operand) (protos : List Prototype) :
    (c.withScope scope).declaring protos = (c.declaring protos).withScope scope := by
  induction protos generalizing c with
  | nil => rfl
  | cons proto protos ih => exact ih (c.declare proto)

theorem scope_declaring (c : Context) (protos : List Prototype) : (c.declaring protos).scope = c.scope := by
  induction protos generalizing c with
  | nil => rfl
  | cons proto protos ih => exact ih (c.declare proto)

theorem declaring_binding (c : Context) (name : String) (slot : Operand) (protos : List Prototype) :
    (c.binding name slot).declaring protos = (c.declaring protos).binding name slot := by
  rw [binding, binding, declaring_withScope, scope_declaring]

theorem Declarable.withScope {scope : SortedMap String Operand} (fresh : (c.withScope scope).Declarable protos) :
    c.Declarable protos := by
  induction protos generalizing c with
  | nil => trivial
  | cons proto protos ih => exact ⟨fresh.1, ih (c := c.declare proto) fresh.2⟩

theorem declaring_append (c : Context) (first second : List Prototype) :
    c.declaring (first ++ second) = (c.declaring first).declaring second :=
  List.foldl_append

theorem Declarable.append {second : List Prototype} (first : c.Declarable protos)
    (later : (c.declaring protos).Declarable second) : c.Declarable (protos ++ second) := by
  induction protos generalizing c with
  | nil => exact later
  | cons proto protos ih => exact ⟨first.1, ih first.2 later⟩

theorem Extends.refl (c : Context) : c.Extends c := ⟨[], trivial, rfl⟩

/-- What one declaration keeps, all of them keep. -/
theorem Extends.induct {motive : Context → Prop} (grown : c.Extends d) (start : motive c)
    (step : ∀ d proto, motive d → d.prototype? proto.name = some proto → proto.isAnonymous = false →
      d.builder.find? proto.name = none → motive (d.declare proto)) : motive d := by
  obtain ⟨protos, fresh, same⟩ := grown
  subst same
  induction protos generalizing c with
  | nil => exact start
  | cons proto protos ih =>
    obtain ⟨⟨registered, named, missing⟩, fresh⟩ := fresh
    exact ih (step c proto start registered named missing) fresh

theorem Extends.scope (grown : c.Extends d) : d.scope = c.scope :=
  grown.induct (motive := fun d => d.scope = c.scope) rfl fun _ _ same _ _ _ => same

theorem Extends.prototypes (grown : c.Extends d) : d.prototypes = c.prototypes :=
  grown.induct (motive := fun d => d.prototypes = c.prototypes) rfl fun _ _ same _ _ _ => same

theorem Extends.registered (grown : c.Extends d) (registered : c.Registered) : d.Registered := by
  intro name proto found
  rw [prototype?, grown.prototypes] at found
  exact registered name proto found

theorem Extends.inside (grown : c.Extends d) (inside : id < c.size) : id < d.size := by
  obtain ⟨protos, _, same⟩ := grown
  subst same
  exact c.lt_size_declaring protos inside

theorem Extends.resolved {m : Module} (grown : c.Extends d) : d.Resolved m → c.Resolved m :=
  grown.induct (motive := fun d => d.Resolved m → c.Resolved m) id
    fun _ _ earlier _ _ _ resolved => earlier resolved.of_declare

end Context

end Kaleidoscope
