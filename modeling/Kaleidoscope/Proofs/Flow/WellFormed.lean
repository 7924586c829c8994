import Kaleidoscope.Proofs.Flow.Dominance

/-!
Well-formed functions: every block ends with its only terminator, every branch goes to a block of the layout, and
every operand is of the kind its place asks for and is computed on every way to its use.
-/

namespace Kaleidoscope.Flow

/-- What an operand stands for. All three are numbers to the machine. -/
inductive Kind where
  | real
  | flag
  | place
  deriving DecidableEq

namespace Instr

/-- The operands with the kind that is asked of each. -/
def inputs : Instr → List (Operand × Kind)
  | arith _ lhs rhs => [(lhs, .real), (rhs, .real)]
  | compare _ lhs rhs => [(lhs, .real), (rhs, .real)]
  | toReal flag => [(flag, .flag)]
  | call _ args => args.map fun arg => (arg, .real)
  | slot => []
  | load place => [(place, .place)]
  | store value place => [(value, .real), (place, .place)]
  | jump _ => []
  | branch flag _ _ => [(flag, .flag)]
  | ret value => [(value, .real)]

/-- The kind of the result, for instructions that have one. -/
def kind? : Instr → Option Kind
  | arith _ _ _ => some .real
  | compare _ _ _ => some .flag
  | toReal _ => some .real
  | call _ _ => some .real
  | slot => some .place
  | load _ => some .real
  | _ => none

theorem operands_eq_inputs (instr : Instr) : instr.operands = instr.inputs.map Prod.fst := by
  cases instr <;> simp [operands, inputs, Function.comp_def]

theorem inputs_mapOperands (change : Operand → Operand) (instr : Instr) :
    (instr.mapOperands change).inputs = instr.inputs.map fun input => (change input.1, input.2) := by
  cases instr <;> simp [mapOperands, inputs, Function.comp_def]

theorem kind?_mapOperands (change : Operand → Operand) (instr : Instr) :
    (instr.mapOperands change).kind? = instr.kind? := by
  cases instr <;> rfl

theorem targets_mapOperands (change : Operand → Operand) (instr : Instr) :
    (instr.mapOperands change).targets = instr.targets := by
  cases instr <;> rfl

theorem isTerminator_mapOperands (change : Operand → Operand) (instr : Instr) :
    (instr.mapOperands change).isTerminator = instr.isTerminator := by
  cases instr <;> rfl

end Instr

namespace Function

def isTerminator (f : Function) (id : Nat) : Bool :=
  match f.instr? id with
  | some instr => instr.isTerminator
  | none => false

def inputsOf (f : Function) (id : Nat) : List (Operand × Kind) :=
  match f.instr? id with
  | some instr => instr.inputs
  | none => []

def kindOf? (f : Function) (id : Nat) : Option Kind := (f.instr? id).bind Instr.kind?

/-- The function that an instruction calls, and with how many arguments. -/
def callOf? (f : Function) (id : Nat) : Option (Nat × Nat) :=
  match f.instr? id with
  | some (.call callee args) => some (callee, args.length)
  | _ => none

theorem callOf?_eq_some {f : Function} {id callee count : Nat} : f.callOf? id = some (callee, count) ↔
    ∃ args, f.instr? id = some (.call callee args) ∧ args.length = count := by
  unfold callOf?
  split
  · next target args found =>
    rw [found]
    constructor
    · rintro ⟨⟩
      exact ⟨args, rfl, rfl⟩
    · rintro ⟨_, ⟨⟩, rfl⟩
      rfl
  · next noCall =>
    constructor
    · intro found
      contradiction
    · rintro ⟨args, found, _⟩
      exact absurd found (noCall callee args)

/-- A live instruction calls `callee` with `count` arguments. -/
def Calls (f : Function) (callee count : Nat) : Prop := ∃ id ∈ f.liveInsts, f.callOf? id = some (callee, count)

instance (f : Function) (callee count : Nat) : Decidable (f.Calls callee count) :=
  inferInstanceAs (Decidable (∃ id ∈ f.liveInsts, f.callOf? id = some (callee, count)))

/-- One terminator, at the end. -/
def Terminated (f : Function) (insts : List Nat) : Prop :=
  ∃ body last, insts = body ++ [last] ∧ f.isTerminator last = true ∧
    ∀ id ∈ body, f.isTerminator id = false

/-- An operand of the kind asked for; where it is the result of an instruction, `computed` tells whether that
one has been carried out. -/
def Fits (f : Function) (computed : Nat → Prop) : Operand × Kind → Prop
  | (.const _, kind) => kind = .real
  | (.param index, kind) => kind = .real ∧ index < f.params.length
  | (.inst source, kind) => f.kindOf? source = some kind ∧ computed source
  | (.undef, _) => False

/-- An operand that is there for the instruction `id` of `block`, whichever way it is reached. -/
def Usable (f : Function) (block id : Nat) : Operand × Kind → Prop :=
  f.Fits fun source => source ∈ f.liveInsts ∧ f.Precedes source block id

theorem Fits.mono {f g : Function} {computed later : Nat → Prop} {input : Operand × Kind}
    (fits : f.Fits computed input) (params : g.params = f.params)
    (kinds : ∀ id kind, f.kindOf? id = some kind → g.kindOf? id = some kind)
    (kept : ∀ id, computed id → later id) : g.Fits later input := by
  obtain ⟨operand, kind⟩ := input
  cases operand with
  | const value => exact fits
  | param index => exact ⟨fits.1, params ▸ fits.2⟩
  | inst source => exact ⟨kinds source kind fits.1, kept source fits.2⟩
  | undef => exact fits

structure WellFormed (f : Function) : Prop where
  entry : ∃ id block, f.entry? = some id ∧ f.block? id = some block ∧ block.name = "entry"
  layout : f.layout.Perm (List.range f.blocks.size)
  linkedOnce : f.liveInsts.Nodup
  inRange : ∀ id ∈ f.liveInsts, id < f.insts.size
  terminated : ∀ block ∈ f.layout, f.Terminated (f.blockInsts block)
  targets : ∀ block ∈ f.layout, ∀ next ∈ f.successors block, next ∈ f.layout ∧ f.entry? ≠ some next
  slots : ∀ block ∈ f.layout, ∀ id ∈ f.blockInsts block, f.isSlot id = true → f.entry? = some block
  operands : ∀ block ∈ f.layout, ∀ id ∈ f.blockInsts block, ∀ input ∈ f.inputsOf id, f.Usable block id input

end Function

end Kaleidoscope.Flow
