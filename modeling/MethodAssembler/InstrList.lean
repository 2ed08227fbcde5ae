import MethodAssembler.Event
import MethodAssembler.Instruction

/-! # Instruction lists

The instructions of a method in a doubly linked list. Instructions are allocated into an arena and named by their place
there, which never changes: an instruction taken out of the list stays allocated, so labels and switch tables may go
on naming it. The operations trap when they are asked to link what is linked, to insert beside what is not, or to
touch what was never allocated. A list can be checked for links that agree, and listed line by line. -/

namespace MethodAssembler

/-- An allocated instruction with its links. -/
structure Node where
  instr : Instruction
  prev : Option InstrId := none
  next : Option InstrId := none
  linked : Bool := false
deriving DecidableEq, Repr

structure InstrList where
  arena : Array Node := #[]
  first : Option InstrId := none
  last : Option InstrId := none
  /-- The number of linked instructions. -/
  length : Nat := 0
  /-- Whether an instruction turned into a nop stays linked, for listings. -/
  retainNops : Bool := false
  /-- How many instructions the arena may hold. -/
  limit : Option Nat := none
deriving Repr

/-- A computation on an instruction list. -/
abbrev ListM := Stateful InstrList

namespace InstrList

def empty (retainNops : Bool) (limit : Option Nat) : InstrList := { retainNops, limit }

def isEmpty (l : InstrList) : Bool := l.first.isNone

/-! ### Single instructions -/

def node (l : InstrList) (id : InstrId) : Checked Node := present l.arena[id]?

def get (l : InstrList) (id : InstrId) : Checked Instruction := return (← l.node id).instr

/-- Changes the node of an allocated instruction. -/
def modifyNode (id : InstrId) (f : Node → Node) : ListM Unit := fun l =>
  if id < l.arena.size then .ok () { l with arena := l.arena.modify id f } else .error .trap l

/-- Changes an allocated instruction. -/
def modifyInstr (id : InstrId) (f : Instruction → Instruction) : ListM Unit :=
  modifyNode id fun n => { n with instr := f n.instr }

/-- Changes an allocated instruction by a step that may fault. -/
def updateInstr (id : InstrId) (f : Instruction → Checked Instruction) : ListM Unit := do
  let i ← (← MonadState.get).get id
  let i ← f i
  modifyInstr id fun _ => i

/-! ### Linking -/

/-- Allocates an instruction without linking it. -/
def alloc (i : Instruction) : ListM InstrId := do
  let size := (← MonadState.get).arena.size
  match (← MonadState.get).limit with
  | some limit => if limit ≤ size then throw (.refused (.arenaExhausted limit))
  | none => pure ()
  modify fun l => { l with arena := l.arena.push { instr := i } }
  return size

/-- Goes on only if the instruction is linked, or only if it is not. -/
def requireLinked (id : InstrId) (linked : Bool) : ListM Unit := do
  let n ← (← MonadState.get).node id
  require (n.linked == linked)

/-- Links an instruction at the end. -/
def append (id : InstrId) : ListM Unit := do
  requireLinked id false
  let tail := (← MonadState.get).last
  match tail with
  | none =>
    require (← MonadState.get).first.isNone
    modify ({ · with first := some id })
  | some tail => modifyNode tail ({ · with next := some id })
  modifyNode id ({ · with prev := tail, next := none, linked := true })
  modify fun l => { l with last := some id, length := l.length + 1 }

/-- Allocates an instruction and links it at the end. -/
def push (i : Instruction) : ListM InstrId := do
  let id ← alloc i
  append id
  return id

/-- Links an instruction immediately before a linked one. -/
def insertBefore (anchor id : InstrId) : ListM Unit := do
  requireLinked anchor true
  requireLinked id false
  let before := (← (← MonadState.get).node anchor).prev
  match before with
  | some before => modifyNode before ({ · with next := some id })
  | none => modify ({ · with first := some id })
  modifyNode id ({ · with prev := before, next := some anchor, linked := true })
  modifyNode anchor ({ · with prev := some id })
  modify fun l => { l with length := l.length + 1 }

/-- Links an instruction immediately after a linked one. -/
def insertAfter (anchor id : InstrId) : ListM Unit := do
  requireLinked anchor true
  requireLinked id false
  let after := (← (← MonadState.get).node anchor).next
  match after with
  | some after => modifyNode after ({ · with prev := some id })
  | none => modify ({ · with last := some id })
  modifyNode id ({ · with prev := some anchor, next := after, linked := true })
  modifyNode anchor ({ · with next := some id })
  modify fun l => { l with length := l.length + 1 }

/-- Takes an instruction out of the list; one that is not in it stays as it is. -/
def unlink (id : InstrId) : ListM Unit := do
  let n ← (← MonadState.get).node id
  if n.linked then
    match n.prev with
    | some before => modifyNode before ({ · with next := n.next })
    | none =>
      require ((← MonadState.get).first == some id)
      modify ({ · with first := n.next })
    match n.next with
    | some after => modifyNode after ({ · with prev := n.prev })
    | none =>
      require ((← MonadState.get).last == some id)
      modify ({ · with last := n.prev })
    modifyNode id ({ · with prev := none, next := none, linked := false })
    require ((← MonadState.get).length != 0)
    modify fun l => { l with length := l.length - 1 }

/-- Turns an instruction into a nop, which leaves the list unless nops are retained. -/
def convertToNop (id : InstrId) : ListM Unit := do
  modifyInstr id ({ · with isNop := true })
  if !(← MonadState.get).retainNops then unlink id

/-- Records a safepoint behind the call `id`: the call clobbers everything, also if there is no room for the marker. -/
def markSafepoint (id : InstrId) : ListM InstrId := do
  let i ← (← MonadState.get).get id
  require !i.useDefInvalid
  modifyInstr id ({ · with defMask := Resource.all })
  push (.marker .safepointPc i.dexPc)

/-- Records at the end of the list that the native PC of a source PC is exported. -/
def markExported (dexPc : UInt32) : ListM InstrId := push (.marker .exportedPc dexPc)

/-! ### Walking -/

/-- The ids met from `cursor` on along the next links, at most `fuel` of them. -/
def walk (arena : Array Node) : (fuel : Nat) → (cursor : Option InstrId) → List InstrId
  | _, none => []
  | 0, some _ => []
  | fuel + 1, some id =>
    match arena[id]? with
    | none => []
    | some n => id :: walk arena fuel n.next

/-- The linked ids in list order. A well linked list is no longer than its arena. -/
def order (l : InstrList) : List InstrId := walk l.arena l.arena.size l.first

/-- The linked instructions in list order, nops included. -/
def entries (l : InstrList) : List (InstrId × Instruction) :=
  l.order.filterMap fun id => l.arena[id]?.map fun n => (id, n.instr)

/-- The linked instructions that are not nops. -/
def live (l : InstrList) : List (InstrId × Instruction) := l.entries.filter fun (_, i) => !i.isNop

/-- Gives the listed instructions their offsets, in order: `place` tells an instruction's offset from the offset
    reached before it, and the offset reached behind it. -/
def stamp (place : UInt32 → InstrId → Instruction → Checked (UInt32 × UInt32)) :
    List InstrId → (reached : UInt32) → ListM UInt32
  | [], reached => return reached
  | id :: ids, reached => do
    let i ← (← MonadState.get).get id
    let (offset, reached) ← place reached id i
    modifyInstr id ({ · with offset })
    stamp place ids reached

/-! ### Checking the links

A walk along the next links that compares each instruction met with what the links claim: linked, preceded by the one
just left, the last one at the tail, and as many as recorded. A walk longer than the arena has met a cycle. -/

/-- Walks on from `cursor`, `prev` being the instruction just left and `count` the number met so far, and returns
    where the walk ends. The arena bounds the count, and so the walk. -/
def checkFrom (l : InstrList) : (cursor prev : Option InstrId) → (count : Nat) → Checked (Option InstrId × Nat)
  | none, prev, count => .ok (prev, count)
  | some id, prev, count => do
    let n ← l.node id
    if !n.linked then throw (.refused (.listCorrupted (.unlinkedMember id)))
    if n.prev ≠ prev then throw (.refused (.listCorrupted (.wrongPrev id n.prev prev)))
    if l.arena.size < count + 1 then throw (.refused (.listCorrupted .cycle))
    else checkFrom l n.next (some id) (count + 1)
termination_by _ _ count => l.arena.size - count

/-- Checks that links, tail and length agree. -/
def checkLinks (l : InstrList) : Checked Unit := do
  let (prev, count) ← l.checkFrom l.first none 0
  if l.last ≠ prev then throw (.refused (.listCorrupted (.wrongTail l.last prev)))
  if count ≠ l.length then throw (.refused (.listCorrupted (.wrongLength count l.length)))

end InstrList

/-! ### Listings

One line per linked instruction: markers and labels by name, target instructions with their offset, opcode and
operands. Nops are listed only where they are retained. -/

section Listings
open Text

/-- Numbers between brackets, separated by commas. -/
def bracketed (items : List String) : String := "[" ++ ", ".intercalate items ++ "]"

def Instruction.listingLine (i : Instruction) (id : InstrId) : String :=
  match i.opcode with
  | .pseudo .safepointPc => "LsafepointPC_0x" ++ hex i.offset.toNat ++ "_" ++ hex i.dexPc.toNat ++ ":"
  | .pseudo .exportedPc => "LexportedPC_0x" ++ hex i.offset.toNat ++ "_" ++ hex i.dexPc.toNat ++ ":"
  | .pseudo .dalvikByteCodeBoundary => "-------- dalvik offset: 0x" ++ hex i.dexPc.toNat
  | .pseudo op =>
    if op.isLabel then instrName id ++ " (" ++ op.text ++ "):" else "-------- " ++ op.text
  | .target code =>
    let digits := toString code.toNat
    hexPadded 5 i.offset.toNat ++ ": op" ++ digits.pushn ' ' (6 - digits.length) ++ " " ++
      bracketed (i.operands.toList.map fun n => toString n.toInt) ++ (if i.isNop then "(nop)" else "")

def InstrList.listing (l : InstrList) : List Event :=
  (l.entries.filter fun (_, i) => !i.isNop || l.retainNops).map fun (id, i) => .debug (i.listingLine id)

end Listings

end MethodAssembler
