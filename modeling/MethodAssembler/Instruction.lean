import MethodAssembler.Fault

/-! # Instructions

The records that an instruction selector hands over: target instructions, opaque here but for their opcode and five
operands, and pseudo instructions, which mark labels, safepoints, exported PCs and block boundaries and take no code
bytes. A record carries the source PC it was generated for, its native offset once offsets are assigned, and the
resources it reads and writes. -/

namespace MethodAssembler

/-- Pseudo instructions; none is encoded to machine code. -/
inductive Pseudo where
  | methodEntry
  | methodExit
  | barrier
  | entryBlock
  | exitBlock
  | dalvikByteCodeBoundary
  | align4
  | ehBlockLabel
  | targetLabel
  | normalBlockLabel
  | throwTarget
  | intrinsicRetry
  | suspendTarget
  /-- A native PC for the block of safepoints. -/
  | safepointPc
  /-- A native PC for the block of exported PCs. -/
  | exportedPc
  | caseLabel
deriving DecidableEq, Repr

/-- Whether other instructions branch to this one. -/
def Pseudo.isLabel : Pseudo → Bool
  | .ehBlockLabel | .targetLabel | .normalBlockLabel | .throwTarget | .intrinsicRetry | .suspendTarget
  | .caseLabel => true
  | _ => false

/-- The name of a pseudo instruction in listings. -/
def Pseudo.text : Pseudo → String
  | .methodEntry => "MethodEntry"
  | .methodExit => "MethodExit"
  | .barrier => "Barrier"
  | .entryBlock => "EntryBlock"
  | .exitBlock => "ExitBlock"
  | .dalvikByteCodeBoundary => "DalvikByteCodeBoundary"
  | .align4 => "Align4"
  | .ehBlockLabel => "EhBlockLabel"
  | .targetLabel => "TargetLabel"
  | .normalBlockLabel => "NormalBlockLabel"
  | .throwTarget => "ThrowTarget"
  | .intrinsicRetry => "IntrinsicRetry"
  | .suspendTarget => "SuspendTarget"
  | .safepointPc => "SafepointPc"
  | .exportedPc => "ExportedPc"
  | .caseLabel => "CaseLabel"

inductive Opcode where
  | pseudo (op : Pseudo)
  /-- An instruction of the target machine, opaque here. -/
  | target (code : UInt16)
deriving DecidableEq, Repr

def Opcode.isPseudo : Opcode → Bool
  | .pseudo _ => true
  | .target _ => false

/-- What an encoder has to fill in once offsets are known. -/
inductive Fixup where
  | none
  | label
  | load
  | branch
  | condBranch
  | adr
  | switchTable
deriving DecidableEq, Repr

/-! ### Resources -/

namespace Resource

/-- Every resource: what a call clobbers. -/
def all : UInt64 := 0xffffffffffffffff
def mustNotAlias : UInt64 := 0x8000000000000000
def heap : UInt64 := 0x4000000000000000
def literal : UInt64 := 0x2000000000000000
def dalvikRegister : UInt64 := 0x1000000000000000

/-- The four bits that describe memory. -/
def memory : UInt64 := 0xf000000000000000

end Resource

/-- The kind of memory that a load or store touches. -/
inductive MemoryRef where
  | literal
  | dalvikRegister
  | heap
  | mustNotAlias
deriving DecidableEq, Repr

def MemoryRef.mask : MemoryRef → UInt64
  | .literal => Resource.literal
  | .dalvikRegister => Resource.dalvikRegister
  | .heap => Resource.heap
  | .mustNotAlias => Resource.mustNotAlias

/-- Whether a store may touch this kind of memory: literals are read-only, and only loads are free of aliases. -/
def MemoryRef.storable : MemoryRef → Bool
  | .dalvikRegister | .heap => true
  | .literal | .mustNotAlias => false

/-- A virtual register and the width of its access in one word, the top bit marking 64 bits. -/
def aliasInfo (register : UInt32) (wide : Bool) : UInt32 :=
  (register &&& 0x7fffffff) ||| (if wide then 0x80000000 else 0)

/-! ### Records -/

structure Instruction where
  opcode : Opcode
  operands : Vector Int32 5 := .replicate 5 0
  /-- The source PC this instruction was generated for, in 16-bit code units. -/
  dexPc : UInt32
  /-- The native offset in bytes; it means something only once offsets are assigned. -/
  offset : UInt32 := 0
  useMask : UInt64 := 0
  defMask : UInt64 := 0
  isNop : Bool := false
  fixup : Fixup := .none
  aliasInfo : UInt32 := 0
  /-- The masks were put to another use and must not be read any more. -/
  useDefInvalid : Bool := false
deriving DecidableEq, Repr

namespace Instruction

def pseudo (op : Pseudo) (dexPc : UInt32) : Instruction := { opcode := .pseudo op, dexPc }

/-- A target instruction with the first five of the given operands; absent ones are zero. -/
def target (code : UInt16) (dexPc : UInt32) (operands : List Int32) : Instruction :=
  { opcode := .target code, dexPc, operands := .ofFn fun i => operands.getD i 0 }

/-- A pseudo instruction that clobbers everything, so that nothing moves across it. -/
def marker (op : Pseudo) (dexPc : UInt32) : Instruction := { pseudo op dexPc with defMask := Resource.all }

def withFixup (i : Instruction) (fixup : Fixup) : Instruction := { i with fixup }

/-- Whether the instruction takes code bytes: nops and pseudo instructions take none. -/
def isLiveTarget (i : Instruction) : Bool := !i.isNop && !i.opcode.isPseudo

/-- Replaces the memory bits of a mask. -/
def replaceMemory (mask : UInt64) (ref : MemoryRef) : UInt64 := (mask &&& ~~~Resource.memory) ||| ref.mask

/-- States which memory a load reads or a store writes. -/
def setMemoryRef (i : Instruction) (isLoad : Bool) (ref : MemoryRef) : Checked Instruction := do
  require !i.useDefInvalid
  require (isLoad || ref.storable)
  return if isLoad then { i with useMask := replaceMemory i.useMask ref }
    else { i with defMask := replaceMemory i.defMask ref }

/-- Marks a load or store of a virtual register in its stack slot. -/
def setRegisterAccess (i : Instruction) (register : UInt32) (isLoad wide : Bool) : Checked Instruction := do
  let i ← i.setMemoryRef isLoad .dalvikRegister
  return { i with aliasInfo := MethodAssembler.aliasInfo register wide }

/-- The block of the mapping table that an instruction marks an entry of. -/
def mappingKind (i : Instruction) : Option MappingKind :=
  if i.isNop then none
  else if i.opcode = .pseudo .safepointPc then some .pcToDex
  else if i.opcode = .pseudo .exportedPc then some .dexToPc
  else none

/-- The entry that a marker stands for. -/
def mappingEntry (i : Instruction) : MappingEntry := ⟨i.offset, i.dexPc⟩

end Instruction

end MethodAssembler
