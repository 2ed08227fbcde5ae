import MethodAssembler.Bytes
import MethodAssembler.Event
import MethodAssembler.InstrList
import MethodAssembler.Leb128

/-! # Mapping tables

A mapping table relates native offsets and source PCs. It is a total count, the count of its first block, and then two
blocks of pairs: native offset against source PC at safepoints, and the same pairs for exported PCs. A pair holds the
differences from the pair before it in its block, the first from zero: unsigned for native offsets, which do not
decrease, and signed modulo 32 bits for source PCs. All numbers are LEB128. -/

namespace MethodAssembler

/-- The markers of a list, in list order, each with its block and entry. -/
def InstrList.markers (l : InstrList) : List (InstrId × MappingKind × MappingEntry) :=
  l.entries.filterMap fun (id, i) => i.mappingKind.map fun kind => (id, kind, i.mappingEntry)

/-- A decoded mapping table. -/
structure MappingTable where
  pcToDex : List MappingEntry := []
  dexToPc : List MappingEntry := []
deriving DecidableEq, Repr

/-- Takes what is wrong with a sequence of bytes for the reason to refuse it. -/
def Checked.ofBytes {α : Type} : Except Malformed α → Checked α
  | .ok a => .ok a
  | .error defect => .error (.refused (.malformed defect))

namespace MappingTable

/-! ### Encoding -/

/-- How far a block is: its last entry, the number of its entries, and the size that they are expected to take. -/
structure Progress where
  last : MappingEntry := ⟨0, 0⟩
  count : UInt32 := 0
  bytes : Nat := 0
deriving DecidableEq, Repr

/-- The two blocks while markers are met in list order. -/
structure Blocks (α : Type) where
  pcToDex : α
  dexToPc : α

namespace Blocks

def get {α : Type} (b : Blocks α) : MappingKind → α
  | .pcToDex => b.pcToDex
  | .dexToPc => b.dexToPc

def modify {α : Type} (b : Blocks α) (kind : MappingKind) (f : α → α) : Blocks α :=
  match kind, b with
  | .pcToDex, ⟨pcToDex, dexToPc⟩ => ⟨f pcToDex, dexToPc⟩
  | .dexToPc, ⟨pcToDex, dexToPc⟩ => ⟨pcToDex, f dexToPc⟩

def set {α : Type} (b : Blocks α) (kind : MappingKind) (a : α) : Blocks α := b.modify kind fun _ => a

end Blocks

/-- The differences of an entry from the last one of its block, and the block with that entry. -/
def Progress.step (p : Progress) (kind : MappingKind) (e : MappingEntry) :
    Checked ((UInt32 × Int32) × Progress) := do
  if e.nativeOffset < p.last.nativeOffset then
    throw (.refused (.nonMonotonicOffset kind p.last.nativeOffset e.nativeOffset))
  let native := e.nativeOffset - p.last.nativeOffset
  let dex := (e.dexPc - p.last.dexPc).toInt32
  let count ← addWords p.count 1
  return ((native, dex), { last := e, count, bytes := p.bytes + Leb128.unsignedSize native + Leb128.signedSize dex })

/-- Counts and measures both blocks. -/
def measure : List (MappingKind × MappingEntry) → Blocks Progress → Checked (Blocks Progress)
  | [], b => .ok b
  | (kind, e) :: rest, b => do
    let (_, p) ← (b.get kind).step kind e
    measure rest (b.set kind p)

/-- Writes the entries behind what the two blocks hold already. -/
def writeBlocks : List (MappingKind × MappingEntry) → Blocks Progress → Blocks Bytes → Checked (Blocks Bytes)
  | [], _, out => .ok out
  | (kind, e) :: rest, b, out => do
    let ((native, dex), p) ← (b.get kind).step kind e
    writeBlocks rest (b.set kind p)
      (out.modify kind fun block => block ++ Leb128.encodeUnsigned native ++ Leb128.encodeSigned dex)

/-- A table and the event that reports it. -/
structure Built where
  table : Bytes
  event : Event

/-- The table of entries met in this order. What was measured must be what is written. -/
def encode (markers : List (MappingKind × MappingEntry)) : Checked Built := do
  let start : Blocks Progress := ⟨{}, {}⟩
  let sizes ← measure markers start
  let total ← addWords sizes.pcToDex.count sizes.dexToPc.count
  let headerSize := Leb128.unsignedSize total + Leb128.unsignedSize sizes.pcToDex.count
  let header := (Leb128.encodeUnsigned total ++ Leb128.encodeUnsigned sizes.pcToDex.count).toArray
  require (header.size = headerSize)
  let out ← writeBlocks markers start ⟨header, #[]⟩
  require (out.pcToDex.size = headerSize + sizes.pcToDex.bytes)
  let table := out.pcToDex ++ out.dexToPc
  require (table.size = headerSize + sizes.pcToDex.bytes + sizes.dexToPc.bytes)
  return {
    table
    event := .counted .debug "built mapping table"
      [("pc2dex", sizes.pcToDex.count.toNat), ("dex2pc", sizes.dexToPc.count.toNat), ("bytes", table.size)] }

/-- The table of the markers of a list. -/
def create (l : InstrList) : Checked Built := encode (l.markers.map (·.2))

/-! ### Decoding -/

/-- The entry behind `e` at these differences. -/
def advance (e : MappingEntry) (delta : UInt32) (dex : Int32) : MappingEntry :=
  ⟨e.nativeOffset + delta, e.dexPc + dex.toUInt32⟩

/-- Takes `count` entries off the front of a stream, `last` being the entry before them. -/
def takeBlock : (count : Nat) → (last : MappingEntry) → List UInt8 →
    Except Malformed (List MappingEntry × List UInt8)
  | 0, _, bytes => .ok ([], bytes)
  | count + 1, last, bytes => do
    let (native, bytes) ← Leb128.takeUnsigned bytes
    let (dex, bytes) ← Leb128.takeSigned bytes
    let e := advance last native dex
    let (rest, bytes) ← takeBlock count e bytes
    return (e :: rest, bytes)

/-- The table that a sequence of bytes spells; no bytes at all spell the empty table. -/
def ofBytes (bytes : List UInt8) : Except Malformed MappingTable :=
  match bytes with
  | [] => .ok {}
  | bytes => do
    let (total, bytes) ← Leb128.takeUnsigned bytes
    let (first, bytes) ← Leb128.takeUnsigned bytes
    if total < first then throw (.mappingCounts first.toNat total.toNat)
    let (pcToDex, bytes) ← takeBlock first.toNat ⟨0, 0⟩ bytes
    let (dexToPc, bytes) ← takeBlock (total.toNat - first.toNat) ⟨0, 0⟩ bytes
    if bytes ≠ [] then throw (.mappingTrailing bytes.length)
    return { pcToDex, dexToPc }

def decode (data : Bytes) : Checked MappingTable := .ofBytes (ofBytes data.toList)

/-- The number of entries. -/
def size (t : MappingTable) : Nat := t.pcToDex.length + t.dexToPc.length

/-- The native offset exported for a source PC. -/
def nativeOffset? (t : MappingTable) (dexPc : UInt32) : Option UInt32 :=
  (t.dexToPc.find? (·.dexPc = dexPc)).map (·.nativeOffset)

end MappingTable

end MethodAssembler
