import MethodAssembler.MethodUnit.Basic
import MethodAssembler.ReferenceMap.Native
import MethodAssembler.VmapTable

/-! # Assembling a unit

From a filled unit to a compiled method: switch cases are resolved to instructions, code and data get their offsets, the
image is written, and the mapping table and the native reference map are made from the instructions. A stage that
stops leaves in the unit what it did until then. -/

namespace MethodAssembler

/-- All that is needed to install a method. -/
structure CompiledMethod where
  instructionSet : InstructionSet
  code : Bytes
  frameSize : UInt32
  coreSpillMask : UInt32
  fpSpillMask : UInt32
  mappingTable : Bytes
  vmapTable : Bytes
  referenceMap : Bytes
deriving DecidableEq, Repr

namespace MethodUnit

/-! ### Switch cases -/

/-- The label of a switch case in a listing: it carries the key of its case. -/
def caseLabel (key : Int32) (dexPc : UInt32) : Instruction :=
  { Instruction.marker .caseLabel dexPc with
    fixup := .label, operands := (Vector.replicate 5 0).setIfInBounds 0 key }

/-- The instruction that a case leads to: the label of its source PC or, in a verbose assembly, a label of its own
    behind that one. -/
def resolveCase (t : SwitchTable) (i : Nat) : UnitM InstrId := do
  let dexPc ← t.caseDexPc i
  let u ← MonadState.get
  let some label := u.blockLabel? dexPc | throw (.refused (.missingBlockLabel dexPc))
  if u.config.verbose then
    let n ← u.list.node label
    if !n.linked then throw (.refused (.listCorrupted (.unlinkedBlockLabel label dexPc)))
    let key ← t.payload.key i
    let case ← onList (InstrList.alloc (caseLabel key dexPc))
    onList (InstrList.insertAfter label case)
    return case
  else return label

/-- Changes a switch table by its number. -/
def modifyTable (number : Nat) (f : SwitchTable → SwitchTable) : UnitM Unit :=
  modify fun u => { u with data := { u.data with switchTables := u.data.switchTables.modify number f } }

/-- Resolves `left` cases of a table from case `i` on. -/
def resolveCases (number : Nat) (t : SwitchTable) : (left i : Nat) → UnitM Unit
  | 0, _ => return ()
  | left + 1, i => do
    let target ← resolveCase t i
    modifyTable number fun t => { t with targets := t.targets.push target }
    resolveCases number t left (i + 1)

/-- Resolves tables, the first of which has this number. -/
def resolveTables : (number : Nat) → List SwitchTable → UnitM Unit
  | _, [] => return ()
  | number, t :: rest => do
    modifyTable number ({ · with targets := #[] })
    resolveCases number t t.payload.size 0
    resolveTables (number + 1) rest

/-- Resolves every case of every switch table. -/
def resolveSwitches : UnitM Unit := do resolveTables 0 (← MonadState.get).data.switchTables

/-! ### Offsets and image -/

/-- Assigns the offsets of instructions and, behind them, of data. -/
def assignOffsets (encoder : Encoder) : UnitM DataLayout := do
  let codeSize ← onList encoder.assignOffsets
  let u ← MonadState.get
  let (data, layout) ← u.data.assign codeSize u.pointerSize
  modify fun u => { u with data, layout }
  report [.counted .debug "assigned offsets" [("code_size", codeSize.toNat),
    ("data_offset", layout.dataOffset.toNat), ("total_size", layout.totalSize.toNat)]]
  return layout

/-- A computation on an image that starts from `code`. Its patches and events are those of the unit. -/
def onImage (code : Bytes) (step : ImageM Unit) : UnitM Bytes := fun u =>
  match step { code, patches := u.patches, events := u.events } with
  | .ok _ m => .ok m.code { u with patches := m.patches, events := m.events }
  | .error e m => .error e { u with patches := m.patches, events := m.events }

/-- Writes the image: the encoded instructions and all data behind them. -/
def install (encoder : Encoder) : UnitM Unit := do
  let u ← MonadState.get
  let code ← encoder.encode u.list
  let code ← onImage code
    (Image.installData u.data u.layout u.context u.pointerSize u.list u.config.branchOrigin)
  modify fun u => { u with code }

/-! ### Tables -/

/-- Makes the mapping table and, if that is asked for, checks it. -/
def createMappingTable : UnitM Unit := do
  let built ← MappingTable.create (← MonadState.get).list
  modify fun u => { u with mappingTable := built.table }
  report [built.event]
  let u ← MonadState.get
  if u.config.verifyTables then
    MappingTable.verify u.mappingTable u.list
    let found := (← MappingTable.decode u.mappingTable).checkCatches u.catches
    modify fun u => { u with diagnostics := u.diagnostics ++ found }
    report (found.map (·.event))

/-- Makes the native reference map from the mapping table. -/
def createReferenceMap (live : VerifierMap) : UnitM Unit := do
  let built ← ReferenceMap.create (← MonadState.get).mappingTable live
  modify fun u => { u with referenceMap := built.table }
  report [built.event]

/-- The compiled method as far as it is. -/
def compiled (u : MethodUnit) : Checked CompiledMethod := do
  let vmapTable ← VmapTable.build u.coreVmap u.fpVmap u.frameSize u.frame
  return {
    instructionSet := u.config.instructionSet
    code := u.code
    frameSize := u.frameSize
    coreSpillMask := u.frame.coreSpillMask
    fpSpillMask := u.frame.fpSpillMask
    mappingTable := u.mappingTable
    vmapTable
    referenceMap := u.referenceMap }

/-! ### Listing -/

open Text in
/-- A literal with its offset. -/
def literalLine (lit : Literal) (content : String) : Event :=
  .debug (hex lit.offset.toNat ++ " (" ++ hexPadded 4 lit.offset.toNat ++ "): .word (" ++ content ++ ")")

def wordLine (lit : Literal) : Event := literalLine lit ("0x" ++ Text.hexInt32 lit.value)

def pointerLine (lit : Literal) : Event :=
  let kind := match InvokeKind.ofOperand? lit.tag with
    | some kind => "Some(" ++ kind.text ++ ")"
    | none => "None"
  literalLine lit ("target #" ++ toString lit.value.toInt ++ ", " ++ kind)

/-- The mapping table of a unit, or why it cannot be read. -/
def mappingListing (u : MethodUnit) : List Event :=
  match MappingTable.ofBytes u.mappingTable.toList with
  | .ok t => t.listing ("method_" ++ toString u.context.methodIndex.toNat)
  | .error defect => [.debug ("mapping table unreadable: " ++ (Error.malformed defect).message)]

/-- Instructions, literals and the mapping table of a unit. -/
def listing (u : MethodUnit) : Checked (List Event) := do
  let bytes ← u.data.estimatedSize
  let head := "Dumping LIR insns for method " ++ toString u.context.methodIndex.toNat ++ " (" ++
    toString u.list.length ++ " insns, " ++ toString bytes.toNat ++ " data bytes)"
  return .debug head :: u.list.listing ++ u.data.words.literals.map wordLine ++
    (u.data.codePointers.literals ++ u.data.methodPointers.literals).map pointerLine ++ u.mappingListing

/-! ### The whole -/

/-- Makes image and tables of a unit whose offsets are assigned. -/
def complete (encoder : Encoder) (live : VerifierMap) : UnitM CompiledMethod := do
  install encoder
  createMappingTable
  createReferenceMap live
  if (← MonadState.get).config.verbose then report (← (← MonadState.get).listing)
  let u ← MonadState.get
  let method ← u.compiled
  report [.counted .info "compiled method" [("method_idx", u.context.methodIndex.toNat),
    ("code_bytes", method.code.size), ("frame_size", method.frameSize.toNat),
    ("diagnostics", u.diagnostics.length)]]
  return method

/-- Assembles a filled unit. -/
def materialize (encoder : Encoder) (live : VerifierMap) : UnitM CompiledMethod := do
  resolveSwitches
  let _ ← assignOffsets encoder
  complete encoder live

end MethodUnit

end MethodAssembler
