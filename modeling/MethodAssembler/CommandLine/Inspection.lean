import MethodAssembler.Artifact
import MethodAssembler.InstrList
import MethodAssembler.MappingTable.Verify

/-! # Inspecting artifacts

The tables of a stored method, line by line. A table that cannot be read ends the inspection; the lines up to it
stand. -/

namespace MethodAssembler
open Text

/-- Lines written one after the other. -/
abbrev LinesM := Stateful (Array String)

namespace LinesM

def line (s : String) : LinesM Unit := modify (·.push s)

def lines (ss : List String) : LinesM Unit := modify fun out : Array String => out ++ ss

end LinesM

namespace Artifact
open LinesM

/-- A number in hexadecimal, filled up to so many digits. -/
def place (width : Nat) (n : UInt32) : String := "0x" ++ hexPadded width n.toNat

def inspectMapping (t : MappingTable) : LinesM Unit := do
  line ("  pc2dex (" ++ toString t.pcToDex.length ++ "):")
  lines (t.pcToDex.map fun e => "    " ++ place 5 e.nativeOffset ++ " -> " ++ place 4 e.dexPc)
  line ("  dex2pc (" ++ toString t.dexToPc.length ++ "):")
  lines (t.dexToPc.map fun e => "    " ++ place 4 e.dexPc ++ " -> " ++ place 5 e.nativeOffset)

def inspectSlot (m : ReferenceMap) (i : Nat) : LinesM Unit := do
  let offset ← m.offsetAt i
  let bitmap ← m.bitmapAt i
  line ("    " ++ place 5 offset ++ ": " ++ bracketed (bitmap.toList.map fun b => hexPadded 2 b.toNat))

def inspectReferences (m : ReferenceMap) : LinesM Unit := do
  line ("  gc map: " ++ toString m.size ++ " entries, offset width " ++ toString m.offsetWidth ++ ", bitmap width " ++
    toString m.bitmapWidth)
  (List.range m.size).forM (inspectSlot m)

def patchLine (p : Patch) : String :=
  "  patch " ++ p.kind.text ++ " @" ++ hexMarked p.literalOffset.toNat ++ ": target #" ++
    toString p.targetIndex.toNat ++ " (" ++ p.targetKind.text ++ ")"

/-- All that an artifact holds, in readable form. -/
def inspect (a : Artifact) : LinesM Unit := do
  let m := a.compiled
  lines ["method " ++ a.name ++ " (#" ++ toString a.methodIndex.toNat ++ ")",
    "  isa: " ++ m.instructionSet.name,
    "  code: " ++ toString m.code.size ++ " bytes",
    "  frame: " ++ toString m.frameSize.toNat ++ " bytes",
    "  spills: core " ++ place 8 m.coreSpillMask ++ ", fp " ++ place 8 m.fpSpillMask]
  inspectMapping (← MappingTable.decode m.mappingTable)
  if !m.referenceMap.isEmpty then
    inspectReferences (← ReferenceMap.ofBytes m.referenceMap)
  let vmap ← VmapTable.decode m.vmapTable
  line ("  vmap: " ++ bracketed (vmap.map fun n => toString n.toNat))
  lines (a.patches.map patchLine)
  lines (a.diagnostics.map fun d => "  " ++ d.text)

end Artifact

end MethodAssembler
