import Kaleidoscope.Proofs.Flow.Shape

/-!
Building only adds: what has been built stays, in the same order.
-/

namespace Kaleidoscope.Flow

namespace Function

/-- `g` can come out of building on at `f`. -/
structure Grows (f g : Function) : Prop where
  name : g.name = f.name
  params : g.params = f.params
  removed : g.removed = f.removed
  instrs : ∀ id instr, f.instr? id = some instr → g.instr? id = some instr
  insts : f.insts.size ≤ g.insts.size
  blocks : f.blocks.size ≤ g.blocks.size
  kept : ∀ block, (f.blockInsts block).Sublist (g.blockInsts block)
  code : ∀ block, f.code block <+: g.code block

variable {f g h : Function}

theorem Grows.refl (f : Function) : f.Grows f :=
  ⟨rfl, rfl, rfl, fun _ _ => id, Nat.le_refl _, Nat.le_refl _, fun _ => List.Sublist.refl _,
    fun _ => List.prefix_refl _⟩

theorem Grows.trans (first : f.Grows g) (second : g.Grows h) : f.Grows h :=
  ⟨second.name.trans first.name, second.params.trans first.params, second.removed.trans first.removed,
    fun id instr found => second.instrs id instr (first.instrs id instr found),
    Nat.le_trans first.insts second.insts, Nat.le_trans first.blocks second.blocks,
    fun block => (first.kept block).trans (second.kept block),
    fun block => (first.code block).trans (second.code block)⟩

private theorem addSlot_head (f : Function) (name : String) :
    (f.addSlot name).2.name = f.name ∧ (f.addSlot name).2.params = f.params ∧
      (f.addSlot name).2.removed = f.removed := by
  unfold addSlot
  split <;> exact ⟨rfl, rfl, rfl⟩

theorem Grows.kindOf? (grows : f.Grows g) (id : Nat) (kind : Kind) (found : f.kindOf? id = some kind) :
    g.kindOf? id = some kind := by
  obtain ⟨instr, has, kinds⟩ := Option.bind_eq_some_iff.mp found
  exact Option.bind_eq_some_iff.mpr ⟨instr, grows.instrs id instr has, kinds⟩

theorem instr?_lt {id : Nat} {instr : Instr} (found : f.instr? id = some instr) : id < f.insts.size := by
  obtain ⟨inst, has, _⟩ := Option.map_eq_some_iff.mp found
  exact (Array.getElem?_eq_some_iff.mp has).1

end Function

namespace Site

variable {site : Site} {waiting : Nat → Prop} {instr : Instr}

theorem Shape.grows_push (shape : site.Shape waiting) (plain : instr.isSlot = false) (name : String) :
    site.func.Grows (site.push instr name).func := by
  refine ⟨rfl, rfl, rfl, fun id other found => ?_, ?_, ?_, fun block => ?_, fun block => ?_⟩
  · rw [instr?_push, if_neg (Nat.ne_of_lt (Function.instr?_lt found)), found]
  · simp
  · simp
  · rw [blockInsts_push shape.here]
    split
    · next same => exact same ▸ List.sublist_append_left _ _
    · exact List.Sublist.refl _
  · have code := shape.arranged.code_addInst shape.here plain name block
    rw [Site.push, code]
    split
    · next same => exact same ▸ List.prefix_append _ _
    · exact List.prefix_refl _

theorem Shape.grows_addSlot (shape : site.Shape waiting) (name : String) :
    site.func.Grows (site.addSlot name).func := by
  have arranged := shape.arranged
  obtain ⟨sameName, params, removed⟩ := Function.addSlot_head site.func name
  refine ⟨sameName, params, removed, fun id other found => ?_, ?_, ?_, fun block => ?_, fun block => ?_⟩
  · rw [instr?_addSlot arranged, if_neg (Nat.ne_of_lt (Function.instr?_lt found)), found]
  · simp [addSlot_func arranged, Function.addSlotTo]
  · simp [addSlot_blocks_size arranged]
  · rw [blockInsts_addSlot arranged]
    split
    · next first =>
      subst first
      have inserted := (List.sublist_cons_self site.func.insts.size (site.func.code 0)).append_left
        ((site.func.blockInsts 0).takeWhile site.func.isSlot)
      rwa [← arranged.entry_split.1] at inserted
    · exact List.Sublist.refl _
  · have same : (site.addSlot name).func.code block = site.func.code block := by
      rw [addSlot_func arranged, arranged.code_addSlotTo]
    exact same ▸ List.prefix_refl _

theorem grows_addBlock (site : Site) (name : String) : site.func.Grows (site.addBlock name).func := by
  have insts : ∀ block, (site.addBlock name).func.blockInsts block = site.func.blockInsts block := fun block =>
    Function.blockInsts_addBlock site.func block name
  refine ⟨rfl, rfl, rfl, fun _ _ => id, Nat.le_refl _, by simp, fun block => ?_, fun block => ?_⟩
  · exact insts block ▸ List.Sublist.refl _
  · have same : (site.addBlock name).func.code block = site.func.code block :=
      congrArg (List.filter (!site.func.isSlot ·)) (insts block)
    exact same ▸ List.prefix_refl _

theorem grows_moveToEnd (site : Site) (block : Nat) : site.func.Grows (site.moveToEnd block).func :=
  ⟨rfl, rfl, rfl, fun _ _ => id, Nat.le_refl _, Nat.le_refl _, fun _ => List.Sublist.refl _,
    fun _ => List.prefix_refl _⟩

end Site

end Kaleidoscope.Flow
