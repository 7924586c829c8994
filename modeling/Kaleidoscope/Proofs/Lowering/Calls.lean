import Kaleidoscope.Proofs.Form.Spelled
import Kaleidoscope.Proofs.Lowering.Finished

/-!
The calls of lowered functions: each goes to a function with a name, and passes it as many arguments as it has
parameters.
-/

namespace Kaleidoscope

open Kaleidoscope.Flow

namespace Flow

namespace Function

variable {f : Function} {known : Nat → Nat → Prop}

/-- All calls are known with their number of arguments, live or not. -/
def CallsOnly (f : Function) (known : Nat → Nat → Prop) : Prop :=
  ∀ id callee args, f.instr? id = some (.call callee args) → known callee args.length

theorem CallsOnly.calls (only : f.CallsOnly known) {callee count : Nat} (calls : f.Calls callee count) :
    known callee count := by
  obtain ⟨id, _, called⟩ := calls
  obtain ⟨args, found, rfl⟩ := callOf?_eq_some.mp called
  exact only id callee args found

theorem CallsOnly.addInst (only : f.CallsOnly known) (block : Nat) (inst : Inst)
    (new : ∀ callee args, inst.instr = .call callee args → known callee args.length) :
    (f.addInst block inst).2.CallsOnly known := by
  intro id callee args found
  rw [instr?_addInst] at found
  split at found
  · exact new callee args (Option.some.inj found)
  · exact only id callee args found

theorem CallsOnly.addSlot (only : f.CallsOnly known) (name : String) : (f.addSlot name).2.CallsOnly known := by
  have slotIn : ∀ {g : Function} (block : Nat), g.CallsOnly known → (g.addSlotTo block name).2.CallsOnly known := by
    intro g block only id callee args found
    rw [instr?_addSlotTo] at found
    split at found
    · cases found
    · exact only id callee args found
  unfold Function.addSlot
  split
  · exact slotIn _ only
  · exact slotIn (g := (f.addBlock "entry").2) _ only

end Function

namespace Site

variable {s : Site} {known : Nat → Nat → Prop} {instr : Instr}

private theorem callsOnly_push (only : s.func.CallsOnly known) (name : String)
    (new : ∀ callee args, instr = .call callee args → known callee args.length) :
    (s.push instr name).func.CallsOnly known :=
  only.addInst s.block ⟨instr, name⟩ new

/-- Instructions other than calls. -/
theorem callsOnly_push_plain (only : s.func.CallsOnly known) (name : String)
    (plain : ∀ callee args, instr ≠ .call callee args) : (s.push instr name).func.CallsOnly known :=
  callsOnly_push only name fun callee args same => absurd same (plain callee args)

private theorem callsOnly_fork (only : s.func.CallsOnly known) (value : Operand) :
    (s.fork value).func.CallsOnly known := by
  have tested : (s.test value "ifcond").func.CallsOnly known :=
    callsOnly_push_plain only "ifcond" fun _ _ => Instr.noConfusion
  have blocks : (s.forkBlocks value).func.CallsOnly known := tested.addSlot "iftmp"
  exact callsOnly_push_plain blocks "" fun _ _ => Instr.noConfusion

private theorem callsOnly_endBranch (only : s.func.CallsOnly known) (value result : Operand) (after next : Nat) :
    (s.endBranch value result after next).func.CallsOnly known := by
  have stored : (s.push (.store value result) "").func.CallsOnly known :=
    callsOnly_push_plain only "" fun _ _ => Instr.noConfusion
  exact callsOnly_push_plain stored "" fun _ _ => Instr.noConfusion

private theorem callsOnly_enterLoop (only : s.func.CallsOnly known) (first slot : Operand) :
    (s.enterLoop first slot).func.CallsOnly known := by
  have stored : (s.push (.store first slot) "").func.CallsOnly known :=
    callsOnly_push_plain only "" fun _ _ => Instr.noConfusion
  have block : ((s.push (.store first slot) "").addBlock "loop").func.CallsOnly known := stored
  exact callsOnly_push_plain block "" fun _ _ => Instr.noConfusion

private theorem callsOnly_advance (only : s.func.CallsOnly known) (name : String) (slot stride : Operand) :
    (s.advance name slot stride).func.CallsOnly known := by
  have loaded : (s.push (.load slot) name).func.CallsOnly known :=
    callsOnly_push_plain only name fun _ _ => Instr.noConfusion
  have added : ((s.push (.load slot) name).push (.arith .add s.next stride) "nextvar").func.CallsOnly known :=
    callsOnly_push_plain loaded "nextvar" fun _ _ => Instr.noConfusion
  exact callsOnly_push_plain added "" fun _ _ => Instr.noConfusion

private theorem callsOnly_leaveLoop (only : s.func.CallsOnly known) (value : Operand) (top : Nat) :
    (s.leaveLoop value top).func.CallsOnly known := by
  have tested : (s.test value "loopcond").func.CallsOnly known :=
    callsOnly_push_plain only "loopcond" fun _ _ => Instr.noConfusion
  have block : ((s.test value "loopcond").addBlock "afterloop").func.CallsOnly known := tested
  exact callsOnly_push_plain block "" fun _ _ => Instr.noConfusion

private theorem callsOnly_newVariable (only : s.func.CallsOnly known) (name : String) (value : Operand) :
    (s.newVariable name value).func.CallsOnly known := by
  have slot : (s.addSlot name).func.CallsOnly known := only.addSlot name
  exact callsOnly_push_plain slot "" fun _ _ => Instr.noConfusion

theorem callsOnly_bindParams (only : s.func.CallsOnly known) (names : List String) (index : Nat) (scope : Scope) :
    (s.bindParams names index scope).1.func.CallsOnly known := by
  induction names generalizing s index scope with
  | nil => exact only
  | cons name names ih => exact ih (callsOnly_newVariable only name (.param index)) (index + 1) _

end Site

/-- A function that can be called by a name, and how many parameters it has. -/
def Module.Callable (m : Module) (callee count : Nat) : Prop :=
  ∃ name, ¬ Numbered name ∧ m.find? name = some callee ∧ m.paramCount callee = count

/-- Every function named like an operator has as many parameters as the operator has operands. -/
def Module.Operators (m : Module) : Prop :=
  ∀ id f, m.raw? id = some f → OperandCount f.name f.params.length

variable {m : Module}

theorem Module.raw?_of_find? {name : String} {id : Nat} (found : m.find? name = some id) :
    ∃ f, m.raw? id = some f ∧ f.removed = false ∧ f.name = name := by
  obtain ⟨inside, live, _⟩ := Array.findIdx?_eq_some_iff_getElem.mp found
  refine ⟨m.functions[id], Array.getElem?_eq_getElem inside, ?_⟩
  simpa using live

theorem Module.Operators.binary (operators : m.Operators) {op : Char} {callee : Nat}
    (symbol : Token.isWordPart op = false) (found : m.find? (Prototype.binaryName op) = some callee) :
    m.Callable callee 2 := by
  refine ⟨_, Prototype.unnumbered_binaryName op, found, ?_⟩
  obtain ⟨f, raw, _, name⟩ := raw?_of_find? found
  have count := (operators callee f raw op symbol).1 name
  simp [paramCount, raw, count]

theorem Module.Operators.unary (operators : m.Operators) {op : Char} {callee : Nat}
    (symbol : Token.isWordPart op = false) (found : m.find? (Prototype.unaryName op) = some callee) :
    m.Callable callee 1 := by
  refine ⟨_, Prototype.unnumbered_unaryName op, found, ?_⟩
  obtain ⟨f, raw, _, name⟩ := raw?_of_find? found
  have count := (operators callee f raw op symbol).2 name
  simp [paramCount, raw, count]

end Flow

variable {m : Module} {scope : Scope} {exprs : List Expr} {s t : Site} {values : List Operand}

theorem Lowers.length (lowers : Lowers m scope exprs s values t) : values.length = exprs.length := by
  induction lowers with
  | cons first others _ ih => simp [ih]
  | _ => rfl

/-- The code of expressions that can come from text calls only functions that can be called. -/
theorem Lowers.callsOnly (lowers : Lowers m scope exprs s values t) (operators : m.Operators)
    (spelled : ∀ e ∈ exprs, e.Spelled) (only : s.func.CallsOnly m.Callable) : t.func.CallsOnly m.Callable := by
  induction lowers with
  | nil => exact only
  | cons _ _ first others =>
    obtain ⟨head, tail⟩ := List.forall_mem_cons.mp spelled
    exact others tail (first (by simpa using head) only)
  | number => exact only
  | var _ => exact Site.callsOnly_push_plain only _ fun _ _ => Instr.noConfusion
  | assign _ _ ih =>
    cases List.forall_mem_singleton.mp spelled with
    | binary _ _ right =>
      exact Site.callsOnly_push_plain (ih (by simpa using right) only) _ fun _ _ => Instr.noConfusion
  | @arith _ _ op hint _ _ _ t l r _ _ ih =>
    cases List.forall_mem_singleton.mp spelled with
    | binary _ left right =>
      have operands := ih (by simp [left, right]) only
      rcases t.arith_cases op l r hint with ⟨_, _, _, _, same⟩ | same
      · rw [same]
        exact operands
      · rw [same]
        exact Site.callsOnly_push_plain operands _ fun _ _ => Instr.noConfusion
  | @less _ _ _ _ t l r _ ih =>
    cases List.forall_mem_singleton.mp spelled with
    | binary _ left right =>
      have compared : (t.push (.compare .less l r) "cmptmp").func.CallsOnly m.Callable :=
        Site.callsOnly_push_plain (ih (by simp [left, right]) only) _ fun _ _ => Instr.noConfusion
      exact Site.callsOnly_push_plain compared _ fun _ _ => Instr.noConfusion
  | binary _ _ found ih =>
    cases List.forall_mem_singleton.mp spelled with
    | binary symbol left right =>
      refine Site.callsOnly_push (ih (by simp [left, right]) only) _ fun _ _ same => ?_
      cases same
      exact operators.binary symbol found
  | unary _ found ih =>
    cases List.forall_mem_singleton.mp spelled with
    | unary symbol inner =>
      refine Site.callsOnly_push (ih (by simpa using inner) only) _ fun _ _ same => ?_
      cases same
      exact operators.unary symbol found
  | call found count values ih =>
    cases List.forall_mem_singleton.mp spelled with
    | call named each =>
      refine Site.callsOnly_push (ih each only) _ fun _ _ same => ?_
      cases same
      exact ⟨_, named, found, count.trans values.length.symm⟩
  | cond _ _ _ tested first second =>
    cases List.forall_mem_singleton.mp spelled with
    | cond test yes no =>
      have one := first (by simpa using yes) (Site.callsOnly_fork (tested (by simpa using test) only) _)
      have two := second (by simpa using no) (Site.callsOnly_endBranch one _ _ _ _)
      exact Site.callsOnly_push_plain (Site.callsOnly_endBranch two _ _ _ _) _ fun _ _ => Instr.noConfusion
  | @loop _ _ _ _ _ step _ _ _ _ _ _ _ _ _ started round =>
    cases List.forall_mem_singleton.mp spelled with
    | loop first last stride inner =>
      have step : (step.getD (.number .one)).Spelled := by
        cases step with
        | none => exact .number _
        | some step => exact stride step rfl
      have begun := started (by simpa using first) (only.addSlot _)
      have rounds := round (by simp [inner, step, last]) (Site.callsOnly_enterLoop begun _ _)
      exact Site.callsOnly_leaveLoop (Site.callsOnly_advance rounds _ _ _) _ _
  | bindNone _ ih =>
    cases List.forall_mem_singleton.mp spelled with
    | bind _ inner => exact ih (by simpa using inner) only
  | bindOne _ _ first others =>
    cases List.forall_mem_singleton.mp spelled with
    | bind each inner =>
      obtain ⟨init, rest⟩ := List.forall_mem_cons.mp each
      refine others ?_ (Site.callsOnly_newVariable (first (by simpa using init) only) _ _)
      simpa using Expr.Spelled.bind rest inner

end Kaleidoscope
