import MethodAssembler.Description.Basic
import MethodAssembler.MethodUnit.Assembly

/-! # Compiling a description

A description is replayed into a fresh unit, which is then assembled with four bytes to an instruction. -/

namespace MethodAssembler

/-- The instruction that dispatches through each switch table, the latest first. -/
abbrev Anchors := List (Nat × InstrId)

/-- The target instruction of a call and the safepoint behind it. -/
def MethodUnit.pushCall (i : Instruction) : UnitM Unit := do
  let id ← push i
  let _ ← onList (InstrList.markSafepoint id)

/-- Replays one instruction; `tables` is the number of switches of the method. -/
def StreamItem.emit (tables : Nat) (anchors : Anchors) : StreamItem → UnitM Anchors
  | .label dexPc => do
    let _ ← MethodUnit.addBlockLabel dexPc
    return anchors
  | .op opcode dexPc operands nop => do
    let id ← MethodUnit.push (.target opcode dexPc operands)
    if nop then MethodUnit.onList (InstrList.convertToNop id)
    return anchors
  | .call opcode dexPc operands => do
    MethodUnit.pushCall (.target opcode dexPc operands)
    return anchors
  | .invokeCode opcode dexPc target kind => do
    let _ ← MethodUnit.codePointer target kind
    MethodUnit.pushCall ((Instruction.target opcode dexPc [target.toInt32]).withFixup .load)
    return anchors
  | .invokeMethod opcode dexPc target kind => do
    let _ ← MethodUnit.methodPointer target kind
    MethodUnit.pushCall ((Instruction.target opcode dexPc [target.toInt32]).withFixup .load)
    return anchors
  | .loadWord opcode dexPc value => do
    if ((← MonadState.get).findWord value 0).isNone then
      let _ ← MethodUnit.addWord value
    let _ ← MethodUnit.push ((Instruction.target opcode dexPc [value]).withFixup .load)
    return anchors
  | .loadWide opcode dexPc low high => do
    if (← MethodUnit.findWide low high).isNone then
      let _ ← MethodUnit.addWide low high
    let _ ← MethodUnit.push ((Instruction.target opcode dexPc [low, high]).withFixup .load)
    return anchors
  | .switch opcode dexPc table => do
    if tables ≤ table then throw (.refused (.malformed (.switchTableIndex dexPc table)))
    let id ← MethodUnit.push ((Instruction.target opcode dexPc [.ofNat table]).withFixup .switchTable)
    return (table, id) :: anchors
  | .exportPc dexPc => do
    let _ ← MethodUnit.onList (InstrList.markExported dexPc)
    return anchors
  | .align4 => do
    let _ ← MethodUnit.push (.pseudo .align4 0)
    return anchors

namespace Description

/-- Replays the stream. -/
def emitStream (tables : Nat) : List StreamItem → Anchors → UnitM Anchors
  | [], anchors => return anchors
  | item :: rest, anchors => do emitStream tables rest (← item.emit tables anchors)

/-- Adds switches, the first of which has this number, each with the last instruction that names it. -/
def addSwitches (anchors : Anchors) : (number : Nat) → List SwitchDescription → UnitM Unit
  | _, [] => return ()
  | number, s :: rest => do
    let _ ← MethodUnit.addSwitchTable s.payload s.dexPc (anchors.lookup number)
    addSwitches anchors (number + 1) rest

def addFillArrays : List FillDescription → UnitM Unit
  | [] => return ()
  | f :: rest => do
    let _ ← MethodUnit.addFillArray (← FillArray.ofElements f.elementWidth f.data f.dexPc)
    addFillArrays rest

/-- Fills a fresh unit with all that a description says. -/
def fill (d : Description) : UnitM Unit := do
  let anchors ← emitStream d.switches.length d.instructions []
  addSwitches anchors 0 d.switches
  addFillArrays d.fillArrays
  d.catches.forM MethodUnit.addCatch
  MethodUnit.setFrame d.frame
  d.coreVmap.forM MethodUnit.addCoreVmap
  d.fpVmap.forM MethodUnit.addFpVmap

/-- Fills a unit and assembles it. -/
def assemble (d : Description) : UnitM CompiledMethod := do
  d.fill
  let live ← VerifierMap.ofBytes (← d.verifierMap)
  MethodUnit.materialize (.fixedWidth 4) live

end Description

/-- A compiled method with its patches and findings. -/
structure MethodOutput where
  method : CompiledMethod
  patches : PatchRecord
  diagnostics : List Diagnostic
deriving DecidableEq, Repr

/-- How a compilation went. Patches and events are there also when it failed. -/
structure Compilation where
  outcome : Checked MethodOutput
  patches : PatchRecord
  events : Array Event

/-- Compiles one description. -/
def Description.compile (d : Description) (config : Config) : Compilation :=
  match d.assemble (.new (d.configure config) d.context) with
  | .ok method u =>
    { outcome := .ok { method, patches := u.patches, diagnostics := u.diagnostics }
      patches := u.patches, events := u.events }
  | .error e u => { outcome := .error e, patches := u.patches, events := u.events }

/-- Compiles one description as the next method of a board. Its patches go on the board as they arise, so they are there
    also when the compilation failed. -/
def Description.compileOn (d : Description) (config : Config) (b : PatchBoard) : Compilation × PatchBoard :=
  let c := d.compile config
  (c, c.patches.foldl (·.add b.own.size) b.addMethod)

end MethodAssembler
