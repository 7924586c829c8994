import Kaleidoscope.Expr.Basic

/-!
Operands joined by binary operators, and their tree: of neighbouring operators the one with the higher precedence binds
first, and of equal ones the left one. The tree is built from the left, with a stack of operators that wait for their
right operand. What holds of the operands and is kept by the operators holds of the tree.
-/

namespace Kaleidoscope

/-- An operator of a chain and the operand on its right. -/
structure Link where
  op : Char
  precedence : Int
  operand : Expr

/-- An operator that waits for its right operand to be complete. -/
structure Waiting where
  lhs : Expr
  op : Char
  precedence : Int

namespace Chain

/-- Completes every waiting operator that binds at least as tightly as `precedence`. -/
def settle (precedence : Int) : List Waiting → Expr → List Waiting × Expr
  | [], current => ([], current)
  | top :: waiting, current =>
    if precedence ≤ top.precedence then
      settle precedence waiting (.binary top.op top.lhs current)
    else
      (top :: waiting, current)

def finish : List Waiting → Expr → Expr
  | [], current => current
  | top :: waiting, current => finish waiting (.binary top.op top.lhs current)

def build : List Waiting → Expr → List Link → Expr
  | waiting, current, [] => finish waiting current
  | waiting, current, link :: links =>
    let (waiting, lhs) := settle link.precedence waiting current
    build (⟨lhs, link.op, link.precedence⟩ :: waiting) link.operand links

/-- The tree of a chain. -/
def tree (first : Expr) (links : List Link) : Expr := build [] first links

variable {links before after : List Link} {link : Link}

/-! Building from the left, a part of the stack at a time. -/

variable {waiting inner outer : List Waiting} {current : Expr} {precedence : Int}

private theorem settle_subset : ∀ top ∈ (settle precedence waiting current).1, top ∈ waiting := by
  induction waiting generalizing current with
  | nil => exact fun _ member => member
  | cons top waiting ih =>
    rw [settle]
    split
    · exact fun other member => List.mem_cons_of_mem _ (ih other member)
    · exact fun _ member => member

/-- An operator that is weaker than all that wait completes them all. -/
theorem settle_all (tighter : ∀ top ∈ waiting, precedence ≤ top.precedence) :
    settle precedence waiting current = ([], finish waiting current) := by
  induction waiting generalizing current with
  | nil => rfl
  | cons top waiting ih =>
    obtain ⟨first, others⟩ := List.forall_mem_cons.mp tighter
    rw [settle, if_pos first, ih others]
    rfl

/-- An operator leaves those alone that it is tighter than. -/
theorem settle_append (looser : ∀ top ∈ outer, top.precedence < precedence) :
    settle precedence (inner ++ outer) current =
      ((settle precedence inner current).1 ++ outer, (settle precedence inner current).2) := by
  induction inner generalizing current with
  | nil =>
    cases outer with
    | nil => rfl
    | cons top outer =>
      have kept : ¬ precedence ≤ top.precedence := Int.not_le.mpr (looser top List.mem_cons_self)
      exact if_neg kept
  | cons top inner ih =>
    rw [List.cons_append, settle, settle]
    split
    · exact ih
    · rfl

private theorem finish_append : finish (inner ++ outer) current = finish outer (finish inner current) := by
  induction inner generalizing current with
  | nil => rfl
  | cons top inner ih => exact ih

/-- What waits below a chain of tighter operators gets the tree of the chain. -/
theorem build_append (inner : List Waiting)
    (looser : ∀ link ∈ links, ∀ top ∈ outer, top.precedence < link.precedence) :
    build (inner ++ outer) current links = finish outer (build inner current links) := by
  induction links generalizing inner current with
  | nil => exact finish_append
  | cons link links ih =>
    obtain ⟨here, others⟩ := List.forall_mem_cons.mp looser
    rw [build, build, settle_append here]
    exact ih (_ :: (settle link.precedence inner current).1) others

/-- An operator that is weaker than all before it takes their whole tree as its left operand. -/
theorem build_weaker (tighter : ∀ top ∈ waiting, link.precedence ≤ top.precedence)
    (least : ∀ other ∈ before, link.precedence ≤ other.precedence) :
    build waiting current (before ++ link :: after) =
      build [⟨build waiting current before, link.op, link.precedence⟩] link.operand after := by
  induction before generalizing waiting current with
  | nil =>
    rw [List.nil_append, build.eq_2, settle_all tighter]
    rfl
  | cons next before ih =>
    obtain ⟨here, others⟩ := List.forall_mem_cons.mp least
    rw [List.cons_append, build, build]
    refine ih (List.forall_mem_cons.mpr ⟨here, fun top member => ?_⟩) others
    exact tighter top (settle_subset top member)

/-- An operator takes the tree of all tighter ones right behind its operand, and is itself the left operand of what
comes next if that is no tighter than it. -/
theorem tree_fold (lhs rhs : Expr) (op : Char) (tighter : ∀ other ∈ before, precedence < other.precedence)
    (looser : ∀ next ∈ after.head?, next.precedence ≤ precedence) :
    tree lhs (⟨op, precedence, rhs⟩ :: (before ++ after)) = tree (.binary op lhs (tree rhs before)) after := by
  have folded : build [⟨lhs, op, precedence⟩] rhs before = .binary op lhs (tree rhs before) := by
    refine build_append [] fun other member top waits => ?_
    cases List.mem_singleton.mp waits
    exact tighter other member
  cases after with
  | nil =>
    rw [List.append_nil]
    exact folded
  | cons next after =>
    have weak : next.precedence ≤ precedence := looser next rfl
    have waits : ∀ top ∈ [Waiting.mk lhs op precedence], next.precedence ≤ top.precedence := by
      intro top member
      cases List.mem_singleton.mp member
      exact weak
    calc tree lhs (⟨op, precedence, rhs⟩ :: (before ++ next :: after))
      _ = build [⟨lhs, op, precedence⟩] rhs (before ++ next :: after) := rfl
      _ = build [⟨build [⟨lhs, op, precedence⟩] rhs before, next.op, next.precedence⟩] next.operand after :=
        build_weaker waits fun other member => Int.le_of_lt (Int.lt_of_le_of_lt weak (tighter other member))
      _ = tree (.binary op lhs (tree rhs before)) (next :: after) := by
        rw [folded]
        rfl

/-! What the operators of a chain keep. -/

variable {joins : Char → Prop} {holds : Expr → Prop}

/-- Good operators that wait, with something good to their left. -/
def Ready (joins : Char → Prop) (holds : Expr → Prop) (waiting : List Waiting) : Prop :=
  ∀ top ∈ waiting, joins top.op ∧ holds top.lhs

section

variable (closed : ∀ op lhs rhs, joins op → holds lhs → holds rhs → holds (.binary op lhs rhs))

include closed

private theorem holds_settle (precedence : Int) (ready : Ready joins holds waiting) (good : holds current) :
    Ready joins holds (settle precedence waiting current).1 ∧ holds (settle precedence waiting current).2 := by
  induction waiting generalizing current with
  | nil => exact ⟨ready, good⟩
  | cons top waiting ih =>
    obtain ⟨⟨symbol, left⟩, others⟩ := List.forall_mem_cons.mp ready
    rw [settle]
    split
    · exact ih others (closed _ _ _ symbol left good)
    · exact ⟨ready, good⟩

private theorem holds_finish (ready : Ready joins holds waiting) (good : holds current) :
    holds (finish waiting current) := by
  induction waiting generalizing current with
  | nil => exact good
  | cons top waiting ih =>
    obtain ⟨⟨symbol, left⟩, others⟩ := List.forall_mem_cons.mp ready
    exact ih others (closed _ _ _ symbol left good)

private theorem holds_build {links : List Link} (ready : Ready joins holds waiting) (good : holds current)
    (each : ∀ link ∈ links, joins link.op ∧ holds link.operand) : holds (build waiting current links) := by
  induction links generalizing waiting current with
  | nil => exact holds_finish closed ready good
  | cons link links ih =>
    obtain ⟨⟨symbol, operand⟩, others⟩ := List.forall_mem_cons.mp each
    obtain ⟨ready, left⟩ := holds_settle closed link.precedence ready good
    exact ih (List.forall_mem_cons.mpr ⟨⟨symbol, left⟩, ready⟩) operand others

end

theorem holds_tree (joins : Char → Prop) (holds : Expr → Prop)
    (closed : ∀ op lhs rhs, joins op → holds lhs → holds rhs → holds (.binary op lhs rhs)) {first : Expr}
    {links : List Link} (good : holds first) (each : ∀ link ∈ links, joins link.op ∧ holds link.operand) :
    holds (tree first links) :=
  holds_build closed (List.forall_mem_nil _) good each

end Chain

end Kaleidoscope
