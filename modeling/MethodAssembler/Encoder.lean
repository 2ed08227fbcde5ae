import MethodAssembler.Bytes
import MethodAssembler.InstrList

/-! # Instruction encoders

An encoder assigns native offsets to the instructions of a list and, later, turns them into bytes. The fixed-width
encoder gives every target instruction the same number of bytes: its opcode above the low half of its first
operand. -/

namespace MethodAssembler

structure Encoder where
  /-- Gives every linked instruction its native offset and returns the size of the code. -/
  assignOffsets : ListM UInt32
  /-- The bytes of the instructions. -/
  encode : InstrList → Checked Bytes

namespace FixedWidth

/-- Pseudo instructions and nops take no space; `align4`, a nop or not, goes to the next multiple of four. -/
def place (width reached : UInt32) (i : Instruction) : Checked (UInt32 × UInt32) := do
  let offset ← if i.opcode = .pseudo .align4 then alignUp reached 4 else pure reached
  let reached ← if i.isLiveTarget then addWords offset width else pure offset
  return (offset, reached)

def assignOffsets (width : UInt32) : ListM UInt32 := do
  let ids := (← MonadState.get).order
  InstrList.stamp (fun reached _ i => place width reached i) ids 0

/-- The bytes of a target instruction: at most eight spell its word, and zeros follow. -/
def instrBytes (width : UInt32) (code : UInt16) (i : Instruction) : List UInt8 :=
  littleEndian (min width.toNat 8) (code.toNat * 65536 + i.operands[0].toUInt32.toNat % 65536) ++
    List.replicate (width.toNat - 8) 0

/-- Adds one instruction at its offset. -/
def encodeInstr (width : UInt32) (code : Bytes) (i : Instruction) : Bytes :=
  match i.opcode with
  | .target opcode => code.padTo i.offset ++ instrBytes width opcode i
  | .pseudo _ => code

def encode (width : UInt32) (l : InstrList) : Bytes :=
  l.live.foldl (fun code (_, i) => encodeInstr width code i) #[]

end FixedWidth

/-- The encoder that gives every target instruction `width` bytes. -/
def Encoder.fixedWidth (width : UInt32) : Encoder where
  assignOffsets := FixedWidth.assignOffsets width
  encode l := .ok (FixedWidth.encode width l)

end MethodAssembler
