import MethodAssembler.Bytes
import MethodAssembler.Frame
import MethodAssembler.Leb128
import MethodAssembler.MappingTable.Basic
import MethodAssembler.SortedWords

/-! # Register tables

Which virtual registers live in which machine registers, as a count and one unsigned LEB128 number per machine
register. Core entries carry the machine register in their high half, by which they are sorted; only the low half, the
virtual register, is written. The return address of a method with a frame stands between core and floating-point
entries. -/

namespace MethodAssembler.VmapTable

/-- The virtual register of an entry. -/
def virtualRegister (entry : UInt32) : UInt32 := entry &&& 0xffff

/-- What stands in place of the return address. -/
def returnAddress : UInt32 := 0xffff

/-- The entries of a table in order. -/
def entries (core fp : List UInt32) (frameSize : UInt32) : List UInt32 :=
  (SortedWords.sort core).map virtualRegister ++ (if 0 < frameSize then [returnAddress] else []) ++
    fp.map virtualRegister

/-- The bytes of a table. A method without a frame cannot have spills. -/
def build (core fp : List UInt32) (frameSize : UInt32) (frame : Frame) : Checked Bytes := do
  require (0 < frameSize || frame.coreSpillMask = 0)
  require (0 < frameSize || frame.fpSpillMask = 0)
  let entries := entries core fp frameSize
  return (Leb128.encodeStream (.ofNat entries.length :: entries)).toArray

/-- The entries that bytes spell; no bytes at all spell none, and bytes behind the last entry do not count. -/
def ofBytes (bytes : List UInt8) : Except Malformed (List UInt32) :=
  match bytes with
  | [] => .ok []
  | bytes => do
    let (count, bytes) ← Leb128.takeUnsigned bytes
    let (entries, _) ← Leb128.takeUnsignedMany count.toNat bytes
    return entries

def decode (data : Bytes) : Checked (List UInt32) := .ofBytes (ofBytes data.toList)

end MethodAssembler.VmapTable
