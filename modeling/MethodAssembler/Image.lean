import MethodAssembler.Bytes
import MethodAssembler.Config
import MethodAssembler.InstrList
import MethodAssembler.Layout
import MethodAssembler.Patch

/-! # Code images

Installing the data of a method behind its code. Every item is written at the offset that the layout gave it: the
image is filled with zeros up to there, and refused if it is already past it. Each pointer is reported as a
patch. -/

namespace MethodAssembler
open Text

/-- An image under construction, the patches for it, and what was reported on the way. -/
structure Image where
  code : Bytes := #[]
  patches : PatchRecord := #[]
  events : Array Event := #[]
deriving Repr

/-- A computation on an image. -/
abbrev ImageM := Stateful Image

namespace Image

def modifyCode (f : Bytes → Bytes) : ImageM Unit := modify fun m => { m with code := f m.code }

def report (e : Event) : ImageM Unit := modify fun m => { m with events := m.events.push e }

/-- Refuses an image that does not stand at `offset`. -/
def requireAt (part : ImagePart) (offset : UInt32) : ImageM Unit := do
  let reached := (← MonadState.get).code.position
  if reached ≠ offset then throw (.refused (.layoutMismatch part offset reached))

/-- Goes to an offset ahead. -/
def seek (part : ImagePart) (offset : UInt32) : ImageM Unit := do
  modifyCode (·.padTo offset)
  requireAt part offset

/-! ### Literals -/

def installWords (pool : LiteralPool) (dataOffset : UInt32) : ImageM Unit := do
  seek .literalPool dataOffset
  pool.literals.forM fun lit => do
    seek .wordLiteral lit.offset
    modifyCode (·.addWord lit.value)

/-- Writes a pool of pointers. The placeholder of a pointer is the index of its target. -/
def installPointers (pool : LiteralPool) (kind : PatchKind) (context : MethodContext) (pointerSize : UInt32) :
    ImageM Unit :=
  pool.literals.forM fun lit => do
    seek .pointerLiteral lit.offset
    let targetIndex := lit.value.toUInt32
    let some targetKind := InvokeKind.ofOperand? lit.tag
      | throw (.refused (.malformed (.pointerInvokeKind lit.tag)))
    let literalOffset := (← MonadState.get).code.position
    modify fun m => { m with patches := m.patches.push { kind, context, targetIndex, targetKind, literalOffset } }
    require (pointerSize.toNat ≤ 8)
    modifyCode (· ++ littleEndian pointerSize.toNat targetIndex.toNat)

/-! ### Switch tables -/

end Image

/-- The instruction that dispatches through a table. -/
def SwitchTable.anchorInstr (t : SwitchTable) (l : InstrList) : Checked Instruction :=
  match t.anchor with
  | some id => l.get id
  | none => .error (.refused (.missingSwitchAnchor t.dexPc))

/-- The native offset from which the displacements of a table are measured. -/
def SwitchTable.origin (t : SwitchTable) (l : InstrList) : BranchOrigin → Checked UInt32
  | .anchorPlusAdvance advance => do
    let anchor ← t.anchorInstr l
    require (anchor.fixup ≠ .none)
    addWords anchor.offset advance
  | .anchor => return (← t.anchorInstr l).offset
  | .tableStart => return t.offset
  | .methodStart => return 0

namespace Image

/-- Writes case `i`, which leads to `target`: its displacement from `base`, behind its key in a sparse table. -/
def installCase (t : SwitchTable) (l : InstrList) (base : UInt32) (i : Nat) (target : InstrId) : ImageM Unit := do
  let displacement := ((← l.get target).offset - base).toInt32
  match t.payload.kind with
  | .sparse =>
    let key ← t.payload.key i
    report (.debug (s!"  Case[{i}] key: 0x" ++ hexInt32 key ++ ", disp: 0x" ++ hexInt32 displacement))
    modifyCode fun code => (code.addWord key).addWord displacement
  | .packed =>
    report (.debug (s!"  Case[{i}] disp: 0x" ++ hexInt32 displacement))
    modifyCode (·.addWord displacement)

/-- Writes the cases from `i` on. -/
def installCases (t : SwitchTable) (l : InstrList) (base : UInt32) : (i : Nat) → List InstrId → ImageM Unit
  | _, [] => return ()
  | i, target :: rest => do
    installCase t l base i target
    installCases t l base (i + 1) rest

def installSwitchTable (l : InstrList) (origin : BranchOrigin) (t : SwitchTable) : ImageM Unit := do
  seek .switchTable t.offset
  if t.targets.size ≠ t.payload.size then
    throw (.refused (.malformed (.switchTargets t.targets.size t.payload.size)))
  let base ← t.origin l origin
  report (.debug ("Switch table for offset 0x" ++ hex base.toNat))
  installCases t l base 0 t.targets.toList

def installSwitchTables (tables : List SwitchTable) (l : InstrList) (origin : BranchOrigin) : ImageM Unit :=
  tables.forM (installSwitchTable l origin)

/-! ### Fill-array data -/

/-- Copies a fill-array as it stands, header included. -/
def installFillArray (f : FillArray) : ImageM Unit := do
  seek .fillArray f.offset
  let units := FillArray.unitsFor f.size.toNat
  require (units ≤ f.units.size)
  modifyCode fun code => (f.units.extract 0 units).foldl Bytes.addUnit code

def installFillArrays (fills : List FillArray) : ImageM Unit := fills.forM installFillArray

/-! ### The whole -/

/-- Writes all data of a method behind its code, up to the end of the image. -/
def installData (data : DataSections) (layout : DataLayout) (context : MethodContext) (pointerSize : UInt32)
    (l : InstrList) (origin : BranchOrigin) : ImageM Unit := do
  installWords data.words layout.dataOffset
  installPointers data.codePointers .code context pointerSize
  installPointers data.methodPointers .method context pointerSize
  installSwitchTables data.switchTables l origin
  installFillArrays data.fillArrays
  seek .imageEnd layout.totalSize

end Image

end MethodAssembler
