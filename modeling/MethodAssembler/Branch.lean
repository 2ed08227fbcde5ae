/-! # Conditional branches

The comparisons of the bytecode's conditional branches on signed words, and how a condition changes when its operands
change places. -/

namespace MethodAssembler

inductive Condition where
  | eq
  | ne
  | lt
  | ge
  | gt
  | le
deriving DecidableEq, Repr

namespace Condition

def holds : Condition → Int32 → Int32 → Bool
  | .eq, a, b => a == b
  | .ne, a, b => a != b
  | .lt, a, b => a < b
  | .ge, a, b => b ≤ a
  | .gt, a, b => b < a
  | .le, a, b => a ≤ b

/-- The condition on `b` and `a` that says what this one says on `a` and `b`. -/
def flip : Condition → Condition
  | .eq => .eq
  | .ne => .ne
  | .lt => .gt
  | .gt => .lt
  | .le => .ge
  | .ge => .le

theorem holds_flip (c : Condition) (a b : Int32) : c.flip.holds b a = c.holds a b := by
  cases c <;> simp only [flip, holds]
  · exact Bool.beq_comm
  · exact bne_comm

end Condition

/-- A conditional branch compares two registers, or one register with zero. -/
structure BranchTest where
  condition : Condition
  againstZero : Bool
deriving DecidableEq, Repr

/-- Whether a branch on two constants is taken. -/
def BranchTest.taken (t : BranchTest) (first second : Int32) : Bool :=
  t.condition.holds first (if t.againstZero then 0 else second)

end MethodAssembler
