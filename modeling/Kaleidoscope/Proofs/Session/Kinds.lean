import Kaleidoscope.Proofs.Session.Linked

/-!
Which results each instruction may use. Operands carry no types, so a flag or the place of a variable could be taken for
a number; in the functions of a session none ever is.
-/

namespace Kaleidoscope

open Kaleidoscope.Flow

namespace Flow

namespace Instr

/-- Whether the result is a number. -/
def yieldsNumber : Instr → Bool
  | arith _ _ _ => true
  | toReal _ => true
  | call _ _ => true
  | load _ => true
  | _ => false

variable {instr : Instr} {operand : Operand}

private theorem kind?_eq_real : instr.kind? = some .real ↔ instr.yieldsNumber = true := by
  cases instr <;> simp [kind?, yieldsNumber]

private theorem kind?_eq_flag : instr.kind? = some .flag ↔ ∃ rel lhs rhs, instr = .compare rel lhs rhs := by
  cases instr <;> simp [kind?]

private theorem kind?_eq_place : instr.kind? = some .place ↔ instr = .slot := by
  cases instr <;> simp [kind?]

/-- Where a flag is asked for. -/
theorem mem_inputs_flag :
    (operand, .flag) ∈ instr.inputs ↔ instr = .toReal operand ∨ ∃ yes no, instr = .branch operand yes no := by
  cases instr <;> simp [inputs, eq_comm]

/-- Where a place is asked for. -/
theorem mem_inputs_place :
    (operand, .place) ∈ instr.inputs ↔ instr = .load operand ∨ ∃ value, instr = .store value operand := by
  cases instr <;> simp [inputs, eq_comm]

end Instr

namespace Function

/-- A constant, a parameter, or a number that an instruction of the function yields. -/
def IsNumber (f : Function) : Operand → Prop
  | .const _ => True
  | .param index => index < f.params.length
  | .inst source => source ∈ f.liveInsts ∧ ∃ instr, f.instr? source = some instr ∧ instr.yieldsNumber = true
  | .undef => False

/-- The result of a comparison. -/
def IsFlag (f : Function) : Operand → Prop
  | .inst source => source ∈ f.liveInsts ∧ ∃ rel lhs rhs, f.instr? source = some (.compare rel lhs rhs)
  | _ => False

/-- A slot of the entry block. -/
def IsPlace (f : Function) : Operand → Prop
  | .inst source => (∃ entry, f.entry? = some entry ∧ source ∈ f.blockInsts entry) ∧ f.instr? source = some .slot
  | _ => False

/-- Each operand of the instruction is what it is used as. -/
def Obeys (f : Function) : Instr → Prop
  | .arith _ lhs rhs => f.IsNumber lhs ∧ f.IsNumber rhs
  | .compare _ lhs rhs => f.IsNumber lhs ∧ f.IsNumber rhs
  | .toReal flag => f.IsFlag flag
  | .call _ args => ∀ arg ∈ args, f.IsNumber arg
  | .slot => True
  | .load place => f.IsPlace place
  | .store value place => f.IsNumber value ∧ f.IsPlace place
  | .jump _ => True
  | .branch flag _ _ => f.IsFlag flag
  | .ret value => f.IsNumber value

variable {f : Function} {id source : Nat} {operand : Operand} {instr : Instr}

private theorem kindOf?_of_instr? (found : f.instr? source = some instr) : f.kindOf? source = instr.kind? := by
  rw [kindOf?, found]
  rfl

private theorem instr?_of_kindOf? {kind : Kind} (known : f.kindOf? source = some kind) :
    ∃ instr, f.instr? source = some instr ∧ instr.kind? = some kind :=
  Option.bind_eq_some_iff.mp known

/-! An operand of some kind is what its kind says. -/

section

variable {computed : Nat → Prop} (live : ∀ id, computed id → id ∈ f.liveInsts)

include live

private theorem Fits.isNumber (fits : f.Fits computed (operand, .real)) : f.IsNumber operand := by
  cases operand with
  | const value => trivial
  | param index => exact fits.2
  | inst source =>
    obtain ⟨instr, found, kind⟩ := instr?_of_kindOf? fits.1
    exact ⟨live source fits.2, instr, found, Instr.kind?_eq_real.mp kind⟩
  | undef => exact fits

private theorem Fits.isFlag (fits : f.Fits computed (operand, .flag)) : f.IsFlag operand := by
  cases operand with
  | const value => cases fits
  | param index => cases fits.1
  | inst source =>
    obtain ⟨instr, found, kind⟩ := instr?_of_kindOf? fits.1
    obtain ⟨rel, lhs, rhs, rfl⟩ := Instr.kind?_eq_flag.mp kind
    exact ⟨live source fits.2, rel, lhs, rhs, found⟩
  | undef => exact fits

private theorem Fits.isPlace (wellFormed : f.WellFormed) (fits : f.Fits computed (operand, .place)) :
    f.IsPlace operand := by
  cases operand with
  | const value => cases fits
  | param index => cases fits.1
  | inst source =>
    obtain ⟨instr, found, kind⟩ := instr?_of_kindOf? fits.1
    obtain rfl := Instr.kind?_eq_place.mp kind
    obtain ⟨home, placed, member⟩ := List.mem_flatMap.mp (live source fits.2)
    have slot : f.isSlot source = true := by simp [isSlot, found, Instr.isSlot]
    exact ⟨⟨home, wellFormed.slots home placed source member slot, member⟩, found⟩
  | undef => exact fits

end

namespace WellFormed

variable (wellFormed : f.WellFormed) (live : id ∈ f.liveInsts) (found : f.instr? id = some instr)

include wellFormed live found

private theorem fits_inputs : ∀ input ∈ instr.inputs, f.Fits (· ∈ f.liveInsts) input := by
  intro input used
  obtain ⟨block, placed, member⟩ := List.mem_flatMap.mp live
  have usable : f.Usable block id input := by
    apply wellFormed.operands block placed id member
    rwa [inputsOf, found]
  exact usable.mono rfl (fun _ _ known => known) fun _ computed => computed.1

/-- In a well-formed function each instruction uses flags as flags, places as places and numbers as numbers. -/
theorem obeys : f.Obeys instr := by
  have fits := wellFormed.fits_inputs live found
  have number : ∀ operand, (operand, .real) ∈ instr.inputs → f.IsNumber operand := fun operand used =>
    (fits _ used).isNumber fun _ computed => computed
  have flag : ∀ operand, (operand, .flag) ∈ instr.inputs → f.IsFlag operand := fun operand used =>
    (fits _ used).isFlag fun _ computed => computed
  have place : ∀ operand, (operand, .place) ∈ instr.inputs → f.IsPlace operand := fun operand used =>
    (fits _ used).isPlace (fun _ computed => computed) wellFormed
  cases instr <;> simp_all [Obeys, Instr.inputs]

private theorem kindOf?_of_used (used : .inst source ∈ instr.operands) :
    ∃ kind, (.inst source, kind) ∈ instr.inputs ∧ f.kindOf? source = some kind := by
  rw [instr.operands_eq_inputs] at used
  obtain ⟨⟨operand, kind⟩, used, rfl⟩ := List.mem_map.mp used
  exact ⟨kind, used, (wellFormed.fits_inputs live found _ used).1⟩

/-- Where the result of a comparison is used. -/
theorem use_of_compare (used : .inst source ∈ instr.operands) {rel : Comparison} {lhs rhs : Operand}
    (compares : f.instr? source = some (.compare rel lhs rhs)) :
    instr = .toReal (.inst source) ∨ ∃ yes no, instr = .branch (.inst source) yes no := by
  obtain ⟨kind, used, known⟩ := wellFormed.kindOf?_of_used live found used
  cases (kindOf?_of_instr? compares).symm.trans known
  exact Instr.mem_inputs_flag.mp used

/-- Where a slot is used. -/
theorem use_of_slot (used : .inst source ∈ instr.operands) (slot : f.instr? source = some .slot) :
    instr = .load (.inst source) ∨ ∃ value, instr = .store value (.inst source) ∧ value ≠ .inst source := by
  obtain ⟨kind, asked, known⟩ := wellFormed.kindOf?_of_used live found used
  cases (kindOf?_of_instr? slot).symm.trans known
  rcases Instr.mem_inputs_place.mp asked with rfl | ⟨value, rfl⟩
  · exact .inl rfl
  · refine .inr ⟨value, rfl, ?_⟩
    rintro rfl
    have stored := (wellFormed.fits_inputs live found (.inst source, .real) List.mem_cons_self).1
    cases known.symm.trans stored

end WellFormed

end Function

end Flow

variable {σ : Type} [Machine.Output σ] {passes : List Pass} {session : Session σ} {lost : List Nat}

/-- Whatever sources a session has run and whatever its passes, in each of its live functions every operand of every
instruction is what it is used as: the results of comparisons serve as conditions and are turned into numbers, slots of
the entry block are read and written, and all other operands are constants, parameters or the results of arithmetic,
conversions, calls and loads. -/
theorem operands_obey_kinds (reachable : session.Reachable passes lost) {func : Nat} {f : Function}
    (live : session.module.function? func = some f) {id : Nat} (member : id ∈ f.liveInsts) :
    ∃ instr, f.instr? id = some instr ∧ f.Obeys instr ∧
      (∀ source rel lhs rhs, .inst source ∈ instr.operands → f.instr? source = some (.compare rel lhs rhs) →
        instr = .toReal (.inst source) ∨ ∃ yes no, instr = .branch (.inst source) yes no) ∧
      ∀ source, .inst source ∈ instr.operands → f.instr? source = some .slot →
        instr = .load (.inst source) ∨ ∃ value, instr = .store value (.inst source) ∧ value ≠ .inst source := by
  obtain ⟨raw, live⟩ := Module.raw?_of_function? live
  have hasBody : f.isDeclaration = false := by
    cases layout : f.layout with
    | nil => simp [Function.liveInsts, layout] at member
    | cons entry rest => simp [Function.isDeclaration, layout]
  have wellFormed := reachable.linked.wellFormed func f raw live hasBody
  have inRange := wellFormed.inRange id member
  have found : f.instr? id = some f.insts[id].instr := by simp [Function.instr?, Function.inst?, inRange]
  refine ⟨_, found, wellFormed.obeys member found, ?_, ?_⟩
  · exact fun source rel lhs rhs used compares => wellFormed.use_of_compare member found used compares
  · exact fun source used slot => wellFormed.use_of_slot member found used slot

/-- A session with all passes that has read a definition with a variable, an assignment and a condition. -/
def choiceSource : String := "def f(x) var y = x < 2 in if x < y then y = x * 2 else f(y) + (y < 1)"

def choiceSession : Session Machine.Sink :=
  (Session.run ⟨.new (.new "m" Pass.standard), Machine.Sink.unbounded, .standard, true, ⟨100, 10⟩⟩ choiceSource).2

theorem operands_obey_kinds_choice :
    (∃ lost, choiceSession.Reachable Pass.standard lost) ∧
    ∃ f, choiceSession.module.function? 0 = some f ∧ 13 ∈ f.liveInsts ∧
      f.instr? 13 = some (.branch (.inst 11) 1 2) ∧ f.IsFlag (.inst 11) := by
  have start : Session.Reachable Pass.standard _ [] := .new "m" Machine.Sink.unbounded true ⟨100, 10⟩
  obtain ⟨more, reached⟩ := start.run choiceSource
  have reachable : choiceSession.Reachable Pass.standard (more ++ []) := reached
  have branches : (choiceSession.module.function? 0).map (fun f => (f.liveInsts.contains 13, f.instr? 13)) =
      some (true, some (.branch (.inst 11) 1 2)) := by decide +kernel
  obtain ⟨f, found, same⟩ := Option.map_eq_some_iff.mp branches
  obtain ⟨member, branch⟩ := Prod.mk.inj same
  have member : 13 ∈ f.liveInsts := List.contains_iff_mem.mp member
  obtain ⟨instr, instr?, obeys, _⟩ := operands_obey_kinds reachable found member
  cases instr?.symm.trans branch
  exact ⟨⟨_, reachable⟩, f, found, member, branch, obeys⟩

end Kaleidoscope
