import MethodAssembler.Fault

/-! # Byte buffers

A growing sequence of bytes, to which numbers are added in little-endian order. Zeros fill the space up to an
offset that lies ahead; a buffer never moves back. -/

namespace MethodAssembler

abbrev Bytes := Array UInt8

/-- The lowest `count` bytes of a number, lowest first. -/
def littleEndian : (count : Nat) → Nat → List UInt8
  | 0, _ => []
  | count + 1, n => .ofNat (n % 256) :: littleEndian count (n / 256)

/-- The number that bytes spell, lowest first. -/
def ofLittleEndian : List UInt8 → Nat
  | [] => 0
  | b :: rest => b.toNat + 256 * ofLittleEndian rest

namespace Bytes

/-- The offset at which the next byte is written. -/
def position (code : Bytes) : UInt32 := .ofNat code.size

/-- Fills with zeros up to an offset; nothing happens if the buffer is already there or past it. -/
def padTo (code : Bytes) (offset : UInt32) : Bytes :=
  if code.size < offset.toNat then code ++ Array.replicate (offset.toNat - code.size) 0 else code

def addUnit (code : Bytes) (value : UInt16) : Bytes := code ++ littleEndian 2 value.toNat

def addWord (code : Bytes) (value : Int32) : Bytes := code ++ littleEndian 4 value.toUInt32.toNat

/-- Adds the lowest `size` bytes of a number; a number has eight. -/
def addPointer (code : Bytes) (value : UInt64) (size : UInt32) : Checked Bytes := do
  require (size.toNat ≤ 8)
  return code ++ littleEndian size.toNat value.toNat

/-- Fills with zeros up to the next multiple of a power of two. -/
def align (code : Bytes) (alignment : UInt32) : Checked Bytes :=
  return code.padTo (← alignUp code.position alignment)

/-- The `count` bytes from a place on. -/
def slice (data : Bytes) (place count : Nat) : Checked Bytes := do
  require (place + count ≤ data.size)
  return data.extract place (place + count)

end Bytes

end MethodAssembler
