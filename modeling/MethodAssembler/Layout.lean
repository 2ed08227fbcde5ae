import MethodAssembler.FillArray
import MethodAssembler.LiteralPool

/-! # Data layout

Behind the code of a method stand its data, in this order: words, code pointers, method pointers, switch tables and
fill-array data. The data start at a multiple of four; pointers are aligned to their size, also when there are
none, and each fill-array is filled up to a multiple of four. -/

namespace MethodAssembler

/-- The data of a method, section by section. -/
structure DataSections where
  words : LiteralPool := {}
  codePointers : LiteralPool := {}
  methodPointers : LiteralPool := {}
  switchTables : List SwitchTable := []
  fillArrays : List FillArray := []
deriving DecidableEq, Repr

/-- Where the data start and where the image ends. -/
structure DataLayout where
  dataOffset : UInt32 := 0
  totalSize : UInt32 := 0
deriving DecidableEq, Repr

/-- Assigns the offsets of switch tables, one behind the other, and returns where they end. -/
def assignSwitchTables : List SwitchTable → (offset : UInt32) → Checked (List SwitchTable × UInt32)
  | [], offset => .ok ([], offset)
  | t :: rest, offset => do
    let (rest, stop) ← assignSwitchTables rest (← addWords offset t.payload.installedSize)
    return ({ t with offset } :: rest, stop)

/-- Assigns the offsets of fill-arrays, each filled up to a multiple of four, and returns where they end. -/
def assignFillArrays : List FillArray → (offset : UInt32) → Checked (List FillArray × UInt32)
  | [], offset => .ok ([], offset)
  | f :: rest, offset => do
    let (rest, stop) ← assignFillArrays rest (← alignUp (← addWords offset f.size) 4)
    return ({ f with offset } :: rest, stop)

namespace DataSections

/-- How many bytes the literals are expected to take. -/
def estimatedSize (s : DataSections) : Checked UInt32 := do
  addWords (← addWords s.words.estimatedSize s.codePointers.estimatedSize) s.methodPointers.estimatedSize

/-- Assigns every data offset behind `codeSize` bytes of code. -/
def assign (s : DataSections) (codeSize pointerSize : UInt32) : Checked (DataSections × DataLayout) := do
  let dataOffset ← alignUp codeSize 4
  let (words, offset) ← s.words.assignWords dataOffset
  let (codePointers, offset) ← s.codePointers.assignPointers offset pointerSize
  let (methodPointers, offset) ← s.methodPointers.assignPointers offset pointerSize
  let (switchTables, offset) ← assignSwitchTables s.switchTables offset
  let (fillArrays, totalSize) ← assignFillArrays s.fillArrays offset
  return ({ words, codePointers, methodPointers, switchTables, fillArrays }, { dataOffset, totalSize })

end DataSections

end MethodAssembler
