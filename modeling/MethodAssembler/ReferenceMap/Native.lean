import MethodAssembler.MappingTable.Basic
import MethodAssembler.ReferenceMap.Verifier

/-! # Native reference maps

Which registers hold references at a native offset. A map has a header of four bytes: the width of an offset in the low
three bits of the first, the width of a bitmap in the rest of it and the second byte, and the number of slots. The
slots, each an offset and a bitmap, are a hash table with linear probing that has exactly one slot for each
safepoint. -/

namespace MethodAssembler

namespace ReferenceMap

/-- Where the search for an offset starts, before it is reduced to the number of slots. -/
def hash (offset : UInt32) : UInt32 :=
  let h := offset ^^^ (offset >>> 20) ^^^ (offset >>> 12)
  h ^^^ (h >>> 7) ^^^ (h >>> 4)

/-- How many bytes it takes to store offsets up to `greatest`. -/
def offsetWidthFor (greatest : UInt32) : Nat := if greatest = 0 then 0 else greatest.toNat.log2 / 8 + 1

/-- The offset that bytes spell. Words have four bytes. -/
def offsetOfBytes (bytes : Bytes) : Checked UInt32 := do
  require (bytes.size ≤ 4)
  return .ofNat (ofLittleEndian bytes.toList)

/-! ### Building -/

/-- A table of slots, each free or holding an offset with its bitmap. -/
structure Builder where
  offsetWidth : Nat
  bitmapWidth : Nat
  slots : Array (Option (UInt32 × Bytes))
  /-- How many slots are taken. -/
  filled : Nat := 0
deriving DecidableEq, Repr

/-- Refuses a value that does not fit its field of the header. -/
def requireBelow (what : Quantity) (value limit : Nat) : Checked Unit :=
  if limit ≤ value then .error (.refused (.limitExceeded what value limit)) else .ok ()

namespace Builder

/-- A table of free slots for offsets up to `greatest`. -/
def new (capacity : Nat) (greatest : UInt32) (bitmapWidth : Nat) : Checked Builder := do
  let offsetWidth := offsetWidthFor greatest
  requireBelow .offsetWidth offsetWidth (2 ^ 3)
  requireBelow .bitmapWidth bitmapWidth (2 ^ 13)
  requireBelow .referenceEntries capacity (2 ^ 16)
  return { offsetWidth, bitmapWidth, slots := .replicate capacity none }

/-- The number of slots. -/
def capacity (b : Builder) : Nat := b.slots.size

/-- The first free slot from `i` on, wrapping around, among `left` of them. -/
def freeSlot (b : Builder) : (left i : Nat) → Checked Nat
  | 0, _ => .error .trap
  | left + 1, i => do
    match ← present b.slots[i]? with
    | some _ => freeSlot b left ((i + 1) % b.capacity)
    | none => return i

/-- Enters an offset with its bitmap. The offset must fit its width. -/
def add (b : Builder) (offset : UInt32) (bitmap : Bytes) : Checked Builder := do
  if b.capacity ≤ b.filled then throw (.refused (.referenceMapFull b.capacity))
  if bitmap.size ≠ b.bitmapWidth then throw (.refused (.bitmapWidthMismatch b.bitmapWidth bitmap.size))
  let i ← b.freeSlot b.capacity ((hash offset).toNat % b.capacity)
  require (offset.toNat < 256 ^ b.offsetWidth)
  return { b with slots := b.slots.setIfInBounds i (some (offset, bitmap)), filled := b.filled + 1 }

/-- The header of the map. -/
def header (b : Builder) : List UInt8 :=
  [.ofNat (b.offsetWidth + b.bitmapWidth % 32 * 8), .ofNat (b.bitmapWidth / 32), .ofNat (b.capacity % 256),
    .ofNat (b.capacity / 256)]

def entryWidth (b : Builder) : Nat := b.offsetWidth + b.bitmapWidth

/-- The bytes of a slot; those of a free one are zero. -/
def slotBytes (b : Builder) : Option (UInt32 × Bytes) → List UInt8
  | some (offset, bitmap) => littleEndian b.offsetWidth offset.toNat ++ bitmap.toList
  | none => List.replicate b.entryWidth 0

/-- The length of the map. -/
def tableSize (b : Builder) : Nat := referenceHeaderSize + b.capacity * b.entryWidth

/-- The bytes of the map. -/
def table (b : Builder) : Bytes := (b.header ++ b.slots.toList.flatMap b.slotBytes).toArray

end Builder

end ReferenceMap

/-! ### Reading -/

/-- A map that was accepted. -/
structure ReferenceMap where
  data : Bytes
deriving DecidableEq, Repr

namespace ReferenceMap

def headerByte (data : Bytes) (i : Nat) : Nat := (data.getD i 0).toNat

def offsetWidth (m : ReferenceMap) : Nat := headerByte m.data 0 % 8

def bitmapWidth (m : ReferenceMap) : Nat := headerByte m.data 0 / 8 + 32 * headerByte m.data 1

/-- The number of slots. -/
def size (m : ReferenceMap) : Nat := headerByte m.data 2 + 256 * headerByte m.data 3

def entryWidth (m : ReferenceMap) : Nat := m.offsetWidth + m.bitmapWidth

/-- Takes bytes for a map if their length is what the header says. -/
def ofBytes (data : Bytes) : Checked ReferenceMap := do
  if data.size < referenceHeaderSize then throw (.refused (.malformed .referenceMapHeader))
  let m : ReferenceMap := { data }
  let implied := referenceHeaderSize + m.size * m.entryWidth
  if data.size ≠ implied then throw (.refused (.malformed (.referenceMapSize data.size implied)))
  return m

/-- The bytes of a slot. -/
def slot (m : ReferenceMap) (i : Nat) : Checked Bytes :=
  m.data.slice (referenceHeaderSize + i * m.entryWidth) m.entryWidth

/-- The offset in a slot. -/
def offsetAt (m : ReferenceMap) (i : Nat) : Checked UInt32 := do
  offsetOfBytes (← (← m.slot i).slice 0 m.offsetWidth)

/-- The bitmap in a slot. -/
def bitmapAt (m : ReferenceMap) (i : Nat) : Checked Bytes := do
  (← m.slot i).slice m.offsetWidth m.bitmapWidth

/-- Searches `left` slots from `i` on, wrapping around. -/
def findFrom (m : ReferenceMap) (offset : UInt32) : (left i : Nat) → Checked (Option Bytes)
  | 0, _ => .ok none
  | left + 1, i => do
    if (← m.offsetAt i) = offset then return some (← m.bitmapAt i)
    findFrom m offset left ((i + 1) % m.size)

/-- The bitmap that a search for an offset meets first. -/
def find? (m : ReferenceMap) (offset : UInt32) : Checked (Option Bytes) :=
  m.findFrom offset m.size ((hash offset).toNat % m.size)

/-! ### From a mapping table -/

/-- Enters the safepoints of a mapping table, each with the verifier's bitmap for its source PC. -/
def addSafepoints (live : VerifierMap) : List MappingEntry → Builder → Checked Builder
  | [], b => .ok b
  | e :: rest, b => do
    let some bitmap ← live.find? e.dexPc | throw (.refused (.missingReferenceBitmap e.dexPc))
    addSafepoints live rest (← b.add e.nativeOffset bitmap)

/-- The greatest native offset of some entries. -/
def greatestOffset (entries : List MappingEntry) : UInt32 :=
  entries.foldl (fun greatest e => max greatest e.nativeOffset) 0

/-- The map of the safepoints of a mapping table, and the event that reports it. -/
def create (mapping : Bytes) (live : VerifierMap) : Checked MappingTable.Built := do
  let safepoints := (← MappingTable.decode mapping).pcToDex
  let greatest := greatestOffset safepoints
  let b ← Builder.new safepoints.length greatest live.bitmapWidth
  let b ← addSafepoints live safepoints b
  return {
    table := b.table
    event := .counted .debug "built native gc map"
      [("entries", safepoints.length), ("max_native_offset", greatest.toNat)] }

end ReferenceMap

end MethodAssembler
