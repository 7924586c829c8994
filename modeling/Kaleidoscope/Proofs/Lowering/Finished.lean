import Kaleidoscope.Proofs.Lowering.Definition
import Kaleidoscope.Proofs.Lowering.Draft

/-!
The function of a finished definition is well formed.
-/

namespace Kaleidoscope

open Kaleidoscope.Flow

namespace Flow.Site

theorem opened_draft (name : String) (params : List String) :
    (opened name params).Draft (fun _ => False) (fun _ => [0]) := by
  have none : ∀ block, (opened name params).func.blockInsts block = [] := by
    intro block
    rw [opened, Function.blockInsts_addBlock]
    rfl
  have size : (opened name params).func.blocks.size = 1 := rfl
  refine ⟨⟨⟨rfl, rfl, ?_, ?_, ?_, ?_, ?_, ?_⟩, ?_, not_false, ?_, ?_, ?_⟩, ⟨?_, ?_, ?_, ?_⟩⟩
  · rw [size]
    exact .refl _
  · simp [none]
  · simp [none]
  · simp [none]
  · exact ⟨[], by simp [Function.code, none], List.forall_mem_nil _⟩
  · simp [none]
  · rw [size]
    exact Nat.zero_lt_one
  · simp [none]
  · simp
  · intro block inside apart
    rw [size] at inside
    exact absurd (Nat.lt_one_iff.mp inside) apart
  · simp
  · intro block inside
    rw [size] at inside
    simp [Nat.lt_one_iff.mp inside]
  · simp [Function.mem_successors, none]
  · simp [none]

variable {s : Site} {waiting : Nat → Prop} {said : Nat → List Nat}

theorem Draft.bindParam (name : String) (index : Nat) {scope : Scope} (draft : s.Draft waiting said)
    (slots : ∀ entry ∈ scope, s.InHand said (entry.2, .place)) (inside : index < s.func.params.length) :
    (s.newVariable name (.param index)).Draft waiting said ∧
      s.func.Grows (s.newVariable name (.param index)).func ∧
      ∀ entry ∈ (name, s.next) :: scope,
        (s.newVariable name (.param index)).InHand said (entry.2, .place) := by
  have param : s.InHand said (.param index, .real) := ⟨rfl, inside⟩
  obtain ⟨bound, binds, place⟩ := draft.newVariable name param
  exact ⟨bound, binds.grows,
    List.forall_mem_cons.mpr ⟨place, fun entry member => binds.inHand (slots entry member)⟩⟩

theorem Draft.bindParams (names : List String) (index : Nat) {scope : Scope} (draft : s.Draft waiting said)
    (slots : ∀ entry ∈ scope, s.InHand said (entry.2, .place)) (distinct : (scope.map Prod.snd).Nodup)
    (count : index + names.length ≤ s.func.params.length) :
    (s.bindParams names index scope).1.Draft waiting said ∧
      s.func.Grows (s.bindParams names index scope).1.func ∧
      (∀ entry ∈ (s.bindParams names index scope).2,
        (s.bindParams names index scope).1.InHand said (entry.2, .place)) ∧
      ((s.bindParams names index scope).2.map Prod.snd).Nodup := by
  induction names generalizing index s scope with
  | nil => exact ⟨draft, .refl _, slots, distinct⟩
  | cons name names ih =>
    rw [List.length_cons] at count
    have apart := Ready.next_notMem ⟨waiting, said, draft, slots⟩
    obtain ⟨bound, binds, slots⟩ := draft.bindParam name index slots (by omega)
    obtain ⟨draft, grows, places, distinct⟩ := ih (index + 1) bound slots
      (List.nodup_cons.mpr ⟨apart, distinct⟩) (by rw [binds.params]; omega)
    exact ⟨draft, binds.trans grows, places, distinct⟩

end Flow.Site

namespace Lowering.Attempt

variable {c : Context} {proto : Prototype} {body : Expr}

theorem startDraft (attempt : Attempt c proto body) :
    attempt.start.Draft (fun _ => False) (fun _ => [0]) ∧
      (Site.opened attempt.name attempt.params).func.Grows attempt.start.func ∧
      (∀ entry ∈ attempt.scope, attempt.start.InHand (fun _ => [0]) (entry.2, .place)) ∧
      (attempt.scope.map Prod.snd).Nodup := by
  have bound := Site.Draft.bindParams proto.params 0 (Site.opened_draft attempt.name attempt.params)
    (List.forall_mem_nil _) .nil (Nat.le_of_eq ((Nat.zero_add _).trans attempt.count.symm))
  rw [attempt.opens] at bound
  exact bound

/-- The function as it was given its body. -/
def function (attempt : Attempt c proto body) (value : Operand) : Function :=
  (attempt.last.push (.ret value) "").func

theorem lowers (attempt : Attempt c proto body) {value : Operand} (done : attempt.result = .ok value) :
    Lowers (c.defining (attempt.before ++ attempt.meanwhile) proto attempt.scope).builder.module attempt.scope [body]
      attempt.start [value] attempt.last :=
  attempt.code value done _ fun _ _ found => ⟨(Context.find?_eq_some.mp found).2, rfl⟩

theorem arranged (attempt : Attempt c proto body) {value : Operand} (done : attempt.result = .ok value) :
    (attempt.function value).Arranged := by
  obtain ⟨start, _, slots, _⟩ := attempt.startDraft
  obtain ⟨more, draft, _, _⟩ := (attempt.lowers done).draft start slots
  exact draft.shape.arranged.addInst draft.shape.here rfl

theorem wellFormed (attempt : Attempt c proto body) {value : Operand} (done : attempt.result = .ok value) :
    (attempt.function value).WellFormed ∧
      (Site.opened attempt.name attempt.params).func.Grows (attempt.function value) := by
  obtain ⟨start, opened, slots, _⟩ := attempt.startDraft
  obtain ⟨more, draft, onward, inHand⟩ := (attempt.lowers done).draft start slots
  refine ⟨draft.shape.finish draft.certified (inHand value (List.mem_singleton_self _)), ?_⟩
  exact (opened.trans onward.grows).trans (draft.shape.grows_push rfl "")

end Lowering.Attempt

end Kaleidoscope
