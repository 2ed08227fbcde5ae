import MethodAssembler.SwitchTable

/-! # Fill-array data

The initial elements of an array, copied into the code image as they stand: an ident, the width of an element, the
number of elements in two units, and the element bytes, two to a unit. -/

namespace MethodAssembler

structure FillArray where
  units : Array UInt16
  dexPc : UInt32
  /-- The size in bytes, header included. -/
  size : UInt32
  offset : UInt32 := 0
deriving DecidableEq, Repr

namespace FillArray

def ident : UInt16 := 0x0300

/-- How many units a payload of `size` bytes takes. -/
def unitsFor (size : Nat) : Nat := (size + 1) / 2

/-- Takes a sequence of units for fill-array data if it is long enough for the elements that it announces. -/
def parse (units : Array UInt16) (dexPc : UInt32) : Checked FillArray := do
  requireUnits units 4
  let found ← present units[0]?
  if found ≠ ident then throw (.refused (.invalidPayload found))
  let width ← present units[1]?
  let countLow ← present units[2]?
  let countHigh ← present units[3]?
  let size := width.toNat * (countLow.toNat + 65536 * countHigh.toNat) + 8
  if UInt32.size ≤ size then
    throw (.refused (.limitExceeded .fillArraySize (UInt64.size - 1) (UInt32.size - 1)))
  requireUnits units (unitsFor size)
  return { units, dexPc, size := .ofNat size }

/-- Bytes in units, two to a unit, the last filled with zero. -/
def packBytes : List UInt8 → List UInt16
  | [] => []
  | [low] => [.ofNat low.toNat]
  | low :: high :: rest => .ofNat (low.toNat + 256 * high.toNat) :: packBytes rest

/-- The payload for element bytes; an incomplete last element does not count. -/
def ofElements (width : UInt16) (data : List UInt8) (dexPc : UInt32) : Checked FillArray :=
  let count := data.length / max width.toNat 1
  parse (ident :: width :: .ofNat (count % 65536) :: .ofNat (count / 65536 % 65536) :: packBytes data).toArray dexPc

end FillArray

end MethodAssembler
