import MethodAssembler.Config
import MethodAssembler.Frame
import MethodAssembler.Patch
import MethodAssembler.ReferenceMap.Verifier
import MethodAssembler.SwitchTable

/-! # Method descriptions

What an instruction selector says about a method: a flat stream of instructions, and the switches, array data,
exception handlers, frame, register tables and references that go with it. -/

namespace MethodAssembler

/-- One instruction of the stream. -/
inductive StreamItem where
  /-- The start of the basic block at a source PC. -/
  | label (dexPc : UInt32)
  /-- A target instruction, or what an optimisation left of it. -/
  | op (opcode : UInt16) (dexPc : UInt32) (operands : List Int32) (nop : Bool)
  /-- A call, which is followed by a safepoint. -/
  | call (opcode : UInt16) (dexPc : UInt32) (operands : List Int32)
  /-- A call through a code pointer. -/
  | invokeCode (opcode : UInt16) (dexPc target : UInt32) (kind : InvokeKind)
  /-- A call through a method pointer. -/
  | invokeMethod (opcode : UInt16) (dexPc target : UInt32) (kind : InvokeKind)
  /-- The load of a constant. -/
  | loadWord (opcode : UInt16) (dexPc : UInt32) (value : Int32)
  /-- The load of a constant of two words. -/
  | loadWide (opcode : UInt16) (dexPc : UInt32) (low high : Int32)
  /-- The dispatch through a switch table, named by its number. -/
  | switch (opcode : UInt16) (dexPc : UInt32) (table : Nat)
  /-- The export of the native PC reached here. -/
  | exportPc (dexPc : UInt32)
  | align4
deriving DecidableEq, Repr

inductive SwitchDescription where
  | packed (dexPc : UInt32) (firstKey : Int32) (targets : List Int32)
  /-- Keys with their targets, in case order. -/
  | sparse (dexPc : UInt32) (cases : List (Int32 × Int32))
deriving DecidableEq, Repr

namespace SwitchDescription

def dexPc : SwitchDescription → UInt32
  | .packed dexPc _ _ | .sparse dexPc _ => dexPc

def payload : SwitchDescription → SwitchPayload
  | .packed _ firstKey targets => .packed firstKey targets
  | .sparse _ cases => .sparse cases

end SwitchDescription

structure FillDescription where
  dexPc : UInt32
  elementWidth : UInt16
  data : List UInt8
deriving DecidableEq, Repr

/-- The registers that hold references at a source PC. -/
structure ReferenceSet where
  dexPc : UInt32
  registers : List Nat := []
deriving DecidableEq, Repr

structure Description where
  name : String
  context : MethodContext := {}
  /-- An instruction set other than that of the configuration. -/
  instructionSet : Option InstructionSet := none
  instructions : List StreamItem
  switches : List SwitchDescription := []
  fillArrays : List FillDescription := []
  catches : List UInt32 := []
  frame : Frame := {}
  coreVmap : List UInt32 := []
  fpVmap : List UInt32 := []
  /-- What the verifier found; every call needs an entry. -/
  references : List ReferenceSet := []
deriving DecidableEq, Repr

namespace Description

/-- Enters reference sets into a verifier map. -/
def addReferences : List ReferenceSet → VerifierMap.Builder → Checked VerifierMap.Builder
  | [], b => .ok b
  | set :: rest, b => do
    addReferences rest (← set.registers.foldlM (·.setReference set.dexPc) (b.addSafepoint set.dexPc))

/-- The verifier map of a method. -/
def verifierMap (d : Description) : Checked Bytes := do
  (← addReferences d.references { registers := d.frame.registers.toNat }).build

/-- The configuration for a method. -/
def configure (d : Description) (config : Config) : Config :=
  { config with instructionSet := d.instructionSet.getD config.instructionSet }

end Description

end MethodAssembler
