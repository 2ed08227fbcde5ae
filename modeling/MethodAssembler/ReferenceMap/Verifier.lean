import MethodAssembler.Bytes
import MethodAssembler.MappingTable.Basic

/-! # Verifier maps

Which registers hold references at a source PC, as the verifier found out. A map has a header of four bytes: the format
in the low three bits of the first, the width of a bitmap split over the rest of the first byte and the second, and
the number of entries. An entry is a source PC, of one byte in the compact format and of two in the wider one, and a
bitmap in which bit `r` stands for register `r`. Entries ascend by source PC. -/

namespace MethodAssembler

/-- The size of the header of a verifier map and of a native reference map. -/
def referenceHeaderSize : Nat := 4

inductive PcFormat where
  | compact8
  | compact16
deriving DecidableEq, Repr

namespace PcFormat

def pcWidth : PcFormat → Nat
  | .compact8 => 1
  | .compact16 => 2

def toCode : PcFormat → Nat
  | .compact8 => 2
  | .compact16 => 3

def ofCode? (code : Nat) : Option PcFormat :=
  if code = 2 then some .compact8 else if code = 3 then some .compact16 else none

def text : PcFormat → String
  | .compact8 => "Compact8"
  | .compact16 => "Compact16"

end PcFormat

/-- A map that was accepted: its bytes and their format. -/
structure VerifierMap where
  data : Bytes
  format : PcFormat
deriving DecidableEq, Repr

namespace VerifierMap

/-- One byte of the header. -/
def headerByte (data : Bytes) (i : Nat) : Nat := (data.getD i 0).toNat

/-! ### Reading -/

/-- The width of a bitmap in bytes. -/
def bitmapWidth (m : VerifierMap) : Nat := headerByte m.data 1 + 256 * (headerByte m.data 0 / 8)

def size (m : VerifierMap) : Nat := headerByte m.data 2 + 256 * headerByte m.data 3

def entryWidth (m : VerifierMap) : Nat := m.format.pcWidth + m.bitmapWidth

/-- Takes bytes for a map if their format is known and their length is what the header says. -/
def ofBytes (data : Bytes) : Checked VerifierMap := do
  if data.size < referenceHeaderSize then throw (.refused (.malformed .verifierMapHeader))
  let some format := PcFormat.ofCode? (headerByte data 0 % 8)
    | throw (.refused (.malformed (.verifierMapFormat (headerByte data 0 % 8))))
  let m : VerifierMap := { data, format }
  let implied := referenceHeaderSize + m.size * m.entryWidth
  if data.size ≠ implied then throw (.refused (.malformed (.verifierMapSize data.size implied)))
  return m

/-- The bytes of an entry. -/
def entry (m : VerifierMap) (i : Nat) : Checked Bytes :=
  m.data.slice (referenceHeaderSize + i * m.entryWidth) m.entryWidth

def dexPcAt (m : VerifierMap) (i : Nat) : Checked UInt32 := do
  let pc ← (← m.entry i).slice 0 m.format.pcWidth
  return .ofNat (ofLittleEndian pc.toList)

def bitmapAt (m : VerifierMap) (i : Nat) : Checked Bytes := do
  (← m.entry i).slice m.format.pcWidth m.bitmapWidth

/-- Searches the entries from `i` on, `left` of them. -/
def findFrom (m : VerifierMap) (dexPc : UInt32) : (left i : Nat) → Checked (Option Bytes)
  | 0, _ => .ok none
  | left + 1, i => do
    if (← m.dexPcAt i) = dexPc then return some (← m.bitmapAt i)
    findFrom m dexPc left (i + 1)

/-- The bitmap of the first entry for a source PC. -/
def find? (m : VerifierMap) (dexPc : UInt32) : Checked (Option Bytes) := m.findFrom dexPc m.size 0

/-! ### Building -/

/-- Source PCs with the registers that hold references there, the highest PC first. -/
structure Builder where
  registers : Nat
  entries : List (UInt32 × List Nat) := []
deriving DecidableEq, Repr

/-- Sets the bit of a register. -/
def setBit (bitmap : Bytes) (register : Nat) : Bytes :=
  bitmap.modify (register / 8) (· ||| .ofNat (2 ^ (register % 8)))

/-- The bitmap of some registers. -/
def bitmapOf (width : Nat) (registers : List Nat) : Bytes := registers.foldl setBit (.replicate width 0)

namespace Builder

def bitmapWidth (b : Builder) : Nat := (b.registers + 7) / 8

/-- Changes the registers of a source PC, none if the PC is not there yet. -/
def alterEntry (dexPc : UInt32) (f : List Nat → List Nat) : List (UInt32 × List Nat) → List (UInt32 × List Nat)
  | [] => [(dexPc, f [])]
  | (pc, registers) :: rest =>
    if pc < dexPc then (dexPc, f []) :: (pc, registers) :: rest
    else if pc = dexPc then (pc, f registers) :: rest
    else (pc, registers) :: alterEntry dexPc f rest

def alter (b : Builder) (dexPc : UInt32) (f : List Nat → List Nat) : Builder :=
  { b with entries := alterEntry dexPc f b.entries }

/-- Declares a safepoint; it has no references unless it has some already. -/
def addSafepoint (b : Builder) (dexPc : UInt32) : Builder := b.alter dexPc id

/-- The bitmap of a declared safepoint. -/
def bitmap? (b : Builder) (dexPc : UInt32) : Option Bytes :=
  (b.entries.lookup dexPc).map (bitmapOf b.bitmapWidth)

/-- States that a register holds a reference at a source PC. -/
def setReference (b : Builder) (dexPc : UInt32) (register : Nat) : Checked Builder :=
  if b.registers ≤ register then .error (.refused (.limitExceeded .referenceRegister register b.registers))
  else .ok (b.alter dexPc (register :: ·))

/-- The highest source PC, or zero if there is none. -/
def highest (b : Builder) : Nat := (b.entries.head?.map (·.1.toNat)).getD 0

/-- The format of the map: what does not fit the header or the wider format is refused. -/
def format (b : Builder) : Checked PcFormat := do
  if 2 ^ 13 ≤ b.bitmapWidth then throw (.refused (.limitExceeded .bitmapWidth b.bitmapWidth (2 ^ 13)))
  if 2 ^ 16 ≤ b.entries.length then throw (.refused (.limitExceeded .verifierEntries b.entries.length (2 ^ 16)))
  if 2 ^ 16 ≤ b.highest then throw (.refused (.limitExceeded .verifierPc b.highest (2 ^ 16)))
  return if b.highest < 2 ^ 8 then .compact8 else .compact16

/-- The header of the map. -/
def header (b : Builder) (format : PcFormat) : List UInt8 :=
  [.ofNat (format.toCode + b.bitmapWidth / 256 * 8), .ofNat (b.bitmapWidth % 256), .ofNat (b.entries.length % 256),
    .ofNat (b.entries.length / 256)]

/-- The bytes of an entry. -/
def entryBytes (b : Builder) (format : PcFormat) (dexPc : UInt32) (registers : List Nat) : List UInt8 :=
  littleEndian format.pcWidth dexPc.toNat ++ (bitmapOf b.bitmapWidth registers).toList

/-- The length of the map. -/
def tableSize (b : Builder) (format : PcFormat) : Nat :=
  referenceHeaderSize + b.entries.length * (format.pcWidth + b.bitmapWidth)

/-- The bytes of the map, its entries in ascending order. -/
def table (b : Builder) (format : PcFormat) : Bytes :=
  (b.header format ++ b.entries.reverse.flatMap fun (dexPc, registers) => b.entryBytes format dexPc registers).toArray

/-- The bytes of the map, if it fits its format. -/
def build (b : Builder) : Checked Bytes := return b.table (← b.format)

end Builder

end VerifierMap

end MethodAssembler
