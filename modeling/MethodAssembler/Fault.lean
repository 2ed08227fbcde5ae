import MethodAssembler.Error
import MethodAssembler.Numerals

/-! # Faults

A computation that does not end with a value either refuses its input with an error or traps: it was asked to
count past 32 bits, to read outside a table, or to go on although an assertion does not hold. A trap ends the
assembly at hand and has no cause to report.

Computations on a state keep the state they reached when they stop (`EStateM`), because what was recorded until then
stays recorded. -/

namespace MethodAssembler

/-- Why a computation ends without a value. -/
inductive Fault where
  | refused (error : Error)
  | trap
deriving DecidableEq, Repr

/-- A value, or why there is none. -/
abbrev Checked (α : Type) := Except Fault α

/-- A value, or why there is none, together with the state that was reached. -/
abbrev Stateful (σ α : Type) := EStateM Fault σ α

instance {σ : Type} : MonadLift (Except Fault) (EStateM Fault σ) where
  monadLift x := fun s =>
    match x with
    | .ok a => .ok a s
    | .error e => .error e s

/-- The outcome of a computation on a state, without the state. -/
def Stateful.outcome {σ α : Type} : EStateM.Result Fault σ α → Checked α
  | .ok a _ => .ok a
  | .error e _ => .error e

/-- The state that a computation reached. -/
def Stateful.reached {σ α : Type} : EStateM.Result Fault σ α → σ
  | .ok _ s => s
  | .error _ s => s

/-- Goes on only if an assertion holds. -/
def require (holds : Bool) : Checked Unit := if holds then .ok () else .error .trap

/-- The value of an access that must not miss. -/
def present {α : Type} : Option α → Checked α
  | some a => .ok a
  | none => .error .trap

/-- The sum of two words, unless it needs more than 32 bits. -/
def addWords (a b : UInt32) : Checked UInt32 :=
  if a.toNat + b.toNat < UInt32.size then .ok (a + b) else .error .trap

/-- Whether a word is a power of two. -/
def isPowerOfTwo (n : UInt32) : Bool := 2 ^ n.toNat.log2 == n.toNat

/-- The least multiple of `alignment`, a power of two, that is not below `offset`. The sum on the way must fit
    32 bits too. -/
def alignUp (offset alignment : UInt32) : Checked UInt32 := do
  require (isPowerOfTwo alignment)
  let reach ← addWords offset (alignment - 1)
  return reach &&& ~~~(alignment - 1)

end MethodAssembler
