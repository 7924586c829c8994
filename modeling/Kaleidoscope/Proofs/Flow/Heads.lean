import Kaleidoscope.Flow.Module

/-!
Functions by name: the heads of a module decide which function a name stands for, whatever the bodies are.
-/

namespace Kaleidoscope.Flow

/-- What callers of a function see of it. -/
structure Head where
  name : String
  params : List String
  removed : Bool
  deriving DecidableEq

def Function.head (f : Function) : Head := ⟨f.name, f.params, f.removed⟩

namespace Module

def heads (m : Module) : Array Head := m.functions.map Function.head

/-- The module with the body of `f` in the function `id`. -/
def withBody (m : Module) (id : Nat) (f : Function) : Module :=
  m.modify id fun g => { g with insts := f.insts, blocks := f.blocks, layout := f.layout }

variable {m n : Module}

theorem find?_congr (same : m.heads = n.heads) (name : String) : m.find? name = n.find? name := by
  have view : ∀ m : Module,
      m.find? name = m.heads.findIdx? fun head => !head.removed && head.name == name := fun m => by
    rw [heads, Array.findIdx?_map]
    rfl
  rw [view, view, same]

theorem paramCount_congr (same : m.heads = n.heads) (id : Nat) : m.paramCount id = n.paramCount id := by
  have view : ∀ m : Module, m.paramCount id = ((m.heads[id]?).map (·.params.length)).getD 0 := fun m => by
    simp only [paramCount, raw?, heads, Array.getElem?_map]
    cases m.functions[id]? <;> rfl
  rw [view, view, same]

theorem size_congr (same : m.heads = n.heads) : m.functions.size = n.functions.size := by
  simpa [heads] using congrArg Array.size same

/-- Changes of a function that leave its head alone leave all heads alone. -/
theorem heads_modify (m : Module) (id : Nat) {change : Function → Function}
    (kept : ∀ f, (change f).head = f.head) : (m.modify id change).heads = m.heads := by
  apply Array.ext_getElem?
  intro other
  simp only [heads, modify, Array.getElem?_map, Array.getElem?_modify]
  split
  · simp [Function.comp_def, kept]
  · rfl

theorem heads_withBody (m : Module) (id : Nat) (f : Function) : (m.withBody id f).heads = m.heads :=
  m.heads_modify id fun _ => rfl

theorem size_withBody (m : Module) (id : Nat) (f : Function) :
    (m.withBody id f).functions.size = m.functions.size := by
  simp [withBody, modify]

theorem raw?_modify (m : Module) (id other : Nat) (change : Function → Function) :
    (m.modify id change).raw? other = if other = id then (m.raw? id).map change else m.raw? other := by
  simp only [modify, raw?, Array.getElem?_modify]
  by_cases same : other = id
  · subst same
    simp
  · simp [same, Ne.symm same]

theorem raw?_remove (m : Module) (id other : Nat) :
    (m.remove id).raw? other =
      if other = id then (m.raw? id).map fun f => { f with removed := true } else m.raw? other :=
  m.raw?_modify id other _

theorem modify_withBody (m : Module) (id : Nat) (f : Function) {change : Function → Function} {g : Function}
    (same : ∀ h : Function, change { h with insts := f.insts, blocks := f.blocks, layout := f.layout } =
      { h with insts := g.insts, blocks := g.blocks, layout := g.layout }) :
    (m.withBody id f).modify id change = m.withBody id g := by
  simp only [withBody, modify, Module.mk.injEq, true_and, and_true]
  apply Array.ext_getElem?
  intro other
  simp only [Array.getElem?_modify]
  split
  · simp [Function.comp_def, same]
  · rfl

theorem modify_eq_withBody {id : Nat} {f g : Function} {change : Function → Function}
    (found : m.raw? id = some f)
    (same : change f = { f with insts := g.insts, blocks := g.blocks, layout := g.layout }) :
    m.modify id change = m.withBody id g := by
  simp only [withBody, modify, Module.mk.injEq, true_and, and_true]
  apply Array.ext_getElem?
  intro other
  simp only [Array.getElem?_modify]
  split
  · next here =>
    subst here
    simp [show m.functions[id]? = some f from found, same]
  · rfl

theorem raw?_withBody (m : Module) (id other : Nat) (f : Function) :
    (m.withBody id f).raw? other =
      if other = id then (m.raw? id).map fun g => { g with insts := f.insts, blocks := f.blocks, layout := f.layout }
      else m.raw? other :=
  m.raw?_modify id other _

theorem add_modify {id : Nat} (inside : id < m.functions.size) (change : Function → Function) (name : String)
    (params : List String) :
    (m.modify id change).add name params = ((m.add name params).1, (m.add name params).2.modify id change) := by
  have push : ∀ g : Function,
      (m.functions.modify id change).push g = (m.functions.push g).modify id change := fun g => by
    apply Array.ext_getElem?
    intro other
    simp only [Array.getElem?_push, Array.getElem?_modify, Array.size_modify]
    by_cases here : id = other
    · subst here
      simp [Nat.ne_of_lt inside]
    · simp [here]
  unfold add
  split <;> simp [modify, push]

theorem add_withBody {id : Nat} (inside : id < m.functions.size) (f : Function) (name : String)
    (params : List String) :
    (m.withBody id f).add name params =
      ((m.add name params).1, (m.add name params).2.withBody id f) :=
  add_modify inside _ name params

variable {name other : String} {params : List String} {id : Nat}

/-- The name a new function gets. -/
def nameFor (m : Module) (name : String) : String :=
  if name.isEmpty then toString m.nextAnonymous else name

theorem add_eq (m : Module) (name : String) (params : List String) :
    m.add name params = (m.functions.size,
      { m with
        functions := m.functions.push (.declared (m.nameFor name) params)
        nextAnonymous := if name.isEmpty then m.nextAnonymous + 1 else m.nextAnonymous }) := by
  unfold add nameFor
  split <;> rfl

theorem size_add (m : Module) (name : String) (params : List String) :
    (m.add name params).2.functions.size = m.functions.size + 1 := by
  simp [add_eq]

theorem raw?_add (m : Module) (name : String) (params : List String) (id : Nat) :
    (m.add name params).2.raw? id =
      if id = m.functions.size then some (.declared (m.nameFor name) params) else m.raw? id := by
  simp only [add_eq, raw?, Array.getElem?_push]

theorem raw?_size (m : Module) : m.raw? m.functions.size = none :=
  Array.getElem?_eq_none (Nat.le_refl _)

theorem find?_lt (found : m.find? name = some id) : id < m.functions.size :=
  (Array.findIdx?_eq_some_iff_getElem.mp found).1

theorem find?_add_of_some (found : m.find? name = some id) : (m.add other params).2.find? name = some id := by
  simp only [find?] at found
  simp [add_eq, find?, Array.findIdx?_push, found]

theorem find?_add_new (named : name.isEmpty = false) (missing : m.find? name = none) :
    (m.add name params).2.find? name = some m.functions.size := by
  simp only [find?] at missing
  simp [add_eq, nameFor, named, find?, Array.findIdx?_push, missing, Function.declared]

theorem paramCount_add (inside : id < m.functions.size) :
    (m.add name params).2.paramCount id = m.paramCount id := by
  simp only [paramCount, raw?_add, if_neg (Nat.ne_of_lt inside)]

theorem hasBody_add (m : Module) (name : String) (params : List String) (id : Nat) :
    (m.add name params).2.hasBody id = m.hasBody id := by
  simp only [hasBody, raw?_add]
  by_cases same : id = m.functions.size
  · simp [same, raw?_size, Function.declared, Function.isDeclaration]
  · simp only [if_neg same]

theorem heads_add (m : Module) (name : String) (params : List String) :
    (m.add name params).2.heads = m.heads.push ⟨m.nameFor name, params, false⟩ := by
  simp [add_eq, heads, Function.declared, Function.head]

end Module

end Kaleidoscope.Flow
