import MethodAssembler.Encoder
import MethodAssembler.Frame
import MethodAssembler.Image
import MethodAssembler.InstrList
import MethodAssembler.MappingTable.Verify

/-! # Method units

Everything that belongs to one method while it is assembled: its instructions, data, labels, exception handlers, frame,
and the tables and patches made for it so far. This file holds the unit and how an instruction selector fills it. -/

namespace MethodAssembler

structure MethodUnit where
  config : Config := {}
  context : MethodContext := {}
  list : InstrList := {}
  data : DataSections := {}
  /-- The label of each source PC, the latest first. -/
  blockLabels : List (UInt32 × InstrId) := []
  /-- The entries of exception handlers, ascending. -/
  catches : List UInt32 := []
  coreVmap : List UInt32 := []
  fpVmap : List UInt32 := []
  frame : Frame := {}
  frameSize : UInt32 := 0
  layout : DataLayout := {}
  code : Bytes := #[]
  mappingTable : Bytes := #[]
  referenceMap : Bytes := #[]
  diagnostics : List Diagnostic := []
  /-- The patches recorded so far. -/
  patches : PatchRecord := #[]
  /-- What was reported so far. -/
  events : Array Event := #[]
deriving Repr

/-- A computation on a unit. -/
abbrev UnitM := Stateful MethodUnit

namespace MethodUnit

def new (config : Config) (context : MethodContext) : MethodUnit :=
  { config, context, list := .empty config.retainNops config.maxInstructions }

def pointerSize (u : MethodUnit) : UInt32 := u.config.instructionSet.pointerSize

def report (events : List Event) : UnitM Unit := modify fun u => { u with events := u.events ++ events }

/-- A computation on the instruction list of the unit. The list is taken out of the unit meanwhile, so that it can be
    changed in place. -/
def onList {α : Type} (step : ListM α) : UnitM α := fun u =>
  let list := u.list
  let u := { u with list := {} }
  match step list with
  | .ok a list => .ok a { u with list }
  | .error e list => .error e { u with list }

def push (i : Instruction) : UnitM InstrId := onList (InstrList.push i)

/-! ### Literals -/

/-- Changes one section by a step that may fault. -/
def onPool {α : Type} (view : DataSections → LiteralPool) (put : LiteralPool → DataSections → DataSections)
    (step : LiteralPool → Checked (α × LiteralPool)) : UnitM α := do
  let (a, pool) ← step (view (← MonadState.get).data)
  modify fun u => { u with data := put pool u.data }
  return a

def onWords {α : Type} (step : LiteralPool → Checked (α × LiteralPool)) : UnitM α :=
  onPool (·.words) (fun words d => { d with words }) step

def addWord (value : Int32) : UnitM LiteralId := onWords (·.addWord value)

def addWide (low high : Int32) : UnitM LiteralId := onWords (·.addWide low high)

def findWord (u : MethodUnit) (value : Int32) (tolerance : UInt32) : Option LiteralId :=
  u.data.words.findNear value tolerance

def findWide (low high : Int32) : UnitM (Option LiteralId) := onWords fun pool => .ok (pool.findWide low high)

/-- The code pointer for a target and a kind of invocation. -/
def codePointer (target : UInt32) (kind : InvokeKind) : UnitM LiteralId := do
  let size := (← MonadState.get).pointerSize
  onPool (·.codePointers) (fun codePointers d => { d with codePointers }) (·.sharePointer target kind size)

/-- The method pointer for a target and a kind of invocation. -/
def methodPointer (target : UInt32) (kind : InvokeKind) : UnitM LiteralId := do
  let size := (← MonadState.get).pointerSize
  onPool (·.methodPointers) (fun methodPointers d => { d with methodPointers }) (·.sharePointer target kind size)

/-! ### Blocks, handlers and tables -/

/-- Names an instruction as the label of a source PC, in place of any earlier one. -/
def registerLabel (dexPc : UInt32) (label : InstrId) : UnitM Unit :=
  modify fun u => { u with blockLabels := (dexPc, label) :: u.blockLabels }

/-- Adds a label for the block at a source PC. -/
def addBlockLabel (dexPc : UInt32) : UnitM InstrId := do
  let label ← push (.pseudo .normalBlockLabel dexPc)
  registerLabel dexPc label
  return label

def blockLabel? (u : MethodUnit) (dexPc : UInt32) : Option InstrId := u.blockLabels.lookup dexPc

/-- Declares that an exception handler starts at a source PC. -/
def addCatch (dexPc : UInt32) : UnitM Unit :=
  modify fun u => { u with catches := SortedWords.insertNew dexPc u.catches }

/-- Adds a switch table and returns its number. -/
def addSwitchTable (payload : SwitchPayload) (dexPc : UInt32) (anchor : Option InstrId) : UnitM Nat := do
  if (← MonadState.get).config.verbose then report (← payload.listing)
  let number := (← MonadState.get).data.switchTables.length
  modify fun u =>
    { u with data := { u.data with switchTables := u.data.switchTables ++ [{ payload, dexPc, anchor }] } }
  return number

/-- Adds fill-array data and returns their number. -/
def addFillArray (fill : FillArray) : UnitM Nat := do
  let number := (← MonadState.get).data.fillArrays.length
  modify fun u => { u with data := { u.data with fillArrays := u.data.fillArrays ++ [fill] } }
  return number

/-- Sets the frame; one that is refused leaves the unit as it was. -/
def setFrame (frame : Frame) : UnitM Unit := do
  let frameSize ← frame.size
  modify fun u => { u with frame, frameSize }

/-- Records a virtual register in a core register, the latter in the high half. -/
def addCoreVmap (entry : UInt32) : UnitM Unit := modify fun u => { u with coreVmap := u.coreVmap ++ [entry] }

/-- Records a virtual register in a floating-point register. -/
def addFpVmap (entry : UInt32) : UnitM Unit := modify fun u => { u with fpVmap := u.fpVmap ++ [entry] }

end MethodUnit

end MethodAssembler
