import MethodAssembler.Fault
import MethodAssembler.InvokeKind

/-! # Literal pools

Constants that stand behind the code of a method. A pool lists its literals newest first, which is also the order in
which they are laid out, so the two words of a wide constant are added high word first. A literal is named by the
number of literals older than it. -/

namespace MethodAssembler

/-- A literal is named by the number of literals that were in the pool before it. -/
abbrev LiteralId := Nat

structure Literal where
  /-- The word itself, or the index of the method that a pointer is for. -/
  value : Int32
  /-- The high word last found behind this one, or the kind of invocation that a pointer is for. -/
  tag : Int32 := 0
  /-- The native offset; it means something only once offsets are assigned. -/
  offset : UInt32 := 0
deriving DecidableEq, Repr

structure LiteralPool where
  /-- The literals, newest first. -/
  literals : List Literal := []
  /-- How many bytes the literals are expected to take. -/
  estimatedSize : UInt32 := 0
deriving DecidableEq, Repr

namespace LiteralPool

def size (p : LiteralPool) : Nat := p.literals.length

/-- The place of a literal in the list and its name add up to the size less one. -/
def idAt (p : LiteralPool) (place : Nat) : LiteralId := p.size - 1 - place

/-- The literals with their names, newest first. -/
def entries (p : LiteralPool) : List (LiteralId × Literal) :=
  let count := p.size
  p.literals.mapIdx fun place lit => (count - 1 - place, lit)

def get (p : LiteralPool) (id : LiteralId) : Checked Literal :=
  if id < p.size then present p.literals[p.size - 1 - id]? else .error .trap

def set (p : LiteralPool) (id : LiteralId) (lit : Literal) : Checked LiteralPool :=
  if id < p.size then .ok { p with literals := p.literals.set (p.size - 1 - id) lit } else .error .trap

/-- The literal behind `id` in the list: the one added just before it. -/
def next : LiteralId → Option LiteralId
  | 0 => none
  | id + 1 => some id

/-! ### Adding -/

def add (p : LiteralPool) (lit : Literal) (bytes : UInt32) : Checked (LiteralId × LiteralPool) := do
  let estimatedSize ← addWords p.estimatedSize bytes
  return (p.size, { literals := lit :: p.literals, estimatedSize })

def addWord (p : LiteralPool) (value : Int32) : Checked (LiteralId × LiteralPool) := p.add { value } 4

/-- Adds a wide constant, high word first, and names its low word. -/
def addWide (p : LiteralPool) (low high : Int32) : Checked (LiteralId × LiteralPool) := do
  let (_, p) ← p.addWord high
  p.addWord low

/-- Adds a pointer to a method, to be filled in by the linker. -/
def addPointer (p : LiteralPool) (target : UInt32) (kind : InvokeKind) (pointerSize : UInt32) :
    Checked (LiteralId × LiteralPool) :=
  p.add { value := target.toInt32, tag := kind.toOperand } pointerSize

/-! ### Searching -/

/-- The newest literal whose value is at most `tolerance` below `value`, modulo 32 bits. -/
def findNear (p : LiteralPool) (value : Int32) (tolerance : UInt32) : Option LiteralId :=
  (p.literals.findIdx? fun lit => (value - lit.value).toUInt32 ≤ tolerance).map p.idAt

/-- One pass over literals, the first of which has this place. The candidate is the literal just passed, if it holds
    `low`. -/
def scanPair (low high : Int32) : (candidate : Option Nat) → (place : Nat) → List Literal → Option Nat
  | _, _, [] => none
  | candidate, place, lit :: rest =>
    if candidate.isSome ∧ lit.value = high then candidate
    else scanPair low high (if lit.value = low then some place else none) (place + 1) rest

/-- The place of the first literal that holds `low` and is followed by one that holds `high`. -/
def findPair (low high : Int32) (literals : List Literal) : Option Nat := scanPair low high none 0 literals

/-- The newest literal that holds `low` and is followed by one that holds `high`; it notes the high word. -/
def findWide (p : LiteralPool) (low high : Int32) : Option LiteralId × LiteralPool :=
  match findPair low high p.literals with
  | none => (none, p)
  | some place => (some (p.idAt place), { p with literals := p.literals.modify place ({ · with tag := high }) })

/-- The newest literal for this target and kind of invocation. -/
def findPointer (p : LiteralPool) (target : UInt32) (kind : InvokeKind) : Option LiteralId :=
  (p.literals.findIdx? fun lit => lit.value = target.toInt32 ∧ lit.tag = kind.toOperand).map p.idAt

/-- The literal for this target and kind of invocation, added if there is none yet. -/
def sharePointer (p : LiteralPool) (target : UInt32) (kind : InvokeKind) (pointerSize : UInt32) :
    Checked (LiteralId × LiteralPool) :=
  match p.findPointer target kind with
  | some id => .ok (id, p)
  | none => p.addPointer target kind pointerSize

/-! ### Offsets -/

/-- Lays literals out one behind the other from `offset` on, `step` bytes apart, and returns where they end. -/
def spread (step : UInt32) : List Literal → (offset : UInt32) → Checked (List Literal × UInt32)
  | [], offset => .ok ([], offset)
  | lit :: rest, offset => do
    let (rest, stop) ← spread step rest (← addWords offset step)
    return ({ lit with offset } :: rest, stop)

/-- Assigns the offsets of words: four bytes each. -/
def assignWords (p : LiteralPool) (offset : UInt32) : Checked (LiteralPool × UInt32) := do
  let (literals, stop) ← spread 4 p.literals offset
  return ({ p with literals }, stop)

/-- Assigns the offsets of pointers, which are aligned to their size. -/
def assignPointers (p : LiteralPool) (offset pointerSize : UInt32) : Checked (LiteralPool × UInt32) := do
  let (literals, stop) ← spread pointerSize p.literals (← alignUp offset pointerSize)
  return ({ p with literals }, stop)

end LiteralPool

end MethodAssembler
