import MethodAssembler.Text

/-! # Errors

Why a method cannot be assembled, as one cause per constructor, and the sentence that reports it. Every error is
final for the method at hand; findings that do not stop an assembly are diagnostics of the mapping table. -/

namespace MethodAssembler
open Text

/-- An instruction is named by its place in the arena of its list. -/
abbrev InstrId := Nat

/-- The two blocks of a mapping table. -/
inductive MappingKind where
  /-- Native offset to source PC, at safepoints. -/
  | pcToDex
  /-- Source PC to native offset, at exported PCs. -/
  | dexToPc
deriving DecidableEq, Repr

/-- A native offset and the source PC it stands for. -/
structure MappingEntry where
  nativeOffset : UInt32
  dexPc : UInt32
deriving DecidableEq, Repr, Inhabited

/-- How the links of an instruction list can contradict each other. -/
inductive ListDefect where
  | unlinkedMember (id : InstrId)
  | wrongPrev (id : InstrId) (found expected : Option InstrId)
  | cycle
  | wrongTail (tail walked : Option InstrId)
  | wrongLength (walked recorded : Nat)
  | unlinkedBlockLabel (id : InstrId) (dexPc : UInt32)
deriving DecidableEq, Repr

/-- What is bounded where a limit is exceeded. -/
inductive Quantity where
  | frameSize
  | fillArraySize
  | offsetWidth
  | bitmapWidth
  | referenceEntries
  | referenceRegister
  | verifierEntries
  | verifierPc
deriving DecidableEq, Repr

/-- Why a sequence of bytes or a description is not what it should encode. -/
inductive Malformed where
  | lebPastEnd
  | lebTruncated
  | lebUnsignedOverflow
  | lebSignedOverflow
  | lebRange
  | mappingCounts (pcToDex total : Nat)
  | mappingTrailing (count : Nat)
  | referenceMapHeader
  | referenceMapSize (actual implied : Nat)
  | verifierMapHeader
  | verifierMapFormat (format : Nat)
  | verifierMapSize (actual implied : Nat)
  | switchTargets (resolved cases : Nat)
  | pointerInvokeKind (operand : Int32)
  | switchTableIndex (dexPc : UInt32) (table : Nat)
  | methodName (quoted : String)
deriving DecidableEq, Repr

/-- How a mapping table can fail to repeat the markers of a list. -/
inductive MappingMismatch where
  | wrongEntry (id : InstrId) (expected found : MappingEntry)
  | endsBefore (id : InstrId)
  | surplus
deriving DecidableEq, Repr

/-- A part of the code image that has a place of its own. -/
inductive ImagePart where
  | literalPool
  | wordLiteral
  | pointerLiteral
  | switchTable
  | fillArray
  | imageEnd
deriving DecidableEq, Repr

/-- Why an assembly ends without a result. -/
inductive Error where
  | arenaExhausted (limit : Nat)
  | listCorrupted (defect : ListDefect)
  | nonMonotonicOffset (kind : MappingKind) (previous offset : UInt32)
  | referenceMapFull (capacity : Nat)
  | missingReferenceBitmap (dexPc : UInt32)
  | bitmapWidthMismatch (expected actual : Nat)
  | limitExceeded (what : Quantity) (value limit : Nat)
  | invalidPayload (ident : UInt16)
  | truncatedPayload (needed available : Nat)
  | missingBlockLabel (dexPc : UInt32)
  | missingSwitchAnchor (dexPc : UInt32)
  | malformed (defect : Malformed)
  | mappingMismatch (cause : MappingMismatch)
  | layoutMismatch (part : ImagePart) (expected actual : UInt32)
  | fileAccess
  | unreadableConfig
  | unwritableConfig
  | unreadableDescription
deriving DecidableEq, Repr

/-- The name of an instruction in messages and listings. -/
def instrName (id : InstrId) : String := s!"L{id}"

/-- An optional link as messages show it. -/
def linkText : Option InstrId → String
  | none => "None"
  | some id => s!"Some(LirId({id}))"

def MappingKind.text : MappingKind → String
  | .pcToDex => "pc2dex"
  | .dexToPc => "dex2pc"

def MappingEntry.text (e : MappingEntry) : String :=
  "MappingEntry \x7b native_pc_offset: " ++ toString e.nativeOffset.toNat ++ ", dex_pc: " ++
    toString e.dexPc.toNat ++ " \x7d"

def ListDefect.message : ListDefect → String
  | .unlinkedMember id => instrName id ++ " reachable but not linked"
  | .wrongPrev id found expected =>
    instrName id ++ ".prev is " ++ linkText found ++ ", expected " ++ linkText expected
  | .cycle => "cycle detected"
  | .wrongTail tail walked => "tail tracker is " ++ linkText tail ++ ", walk ended at " ++ linkText walked
  | .wrongLength walked recorded => s!"walked {walked} records, length says {recorded}"
  | .unlinkedBlockLabel id dexPc =>
    "block label " ++ instrName id ++ " for dex offset " ++ hexMarked dexPc.toNat ++ " is not linked"

def Quantity.text : Quantity → String
  | .frameSize => "frame size"
  | .fillArraySize => "fill-array-data size"
  | .offsetWidth => "native offset width"
  | .bitmapWidth => "reference bitmap width"
  | .referenceEntries => "reference map entry count"
  | .referenceRegister => "reference register"
  | .verifierEntries => "dex gc map entry count"
  | .verifierPc => "dex gc map pc"

/-- What was being read, and what is wrong with it. -/
def Malformed.message : Malformed → String
  | .lebPastEnd => "leb128: unexpected end of data"
  | .lebTruncated => "leb128: unexpected end of input"
  | .lebUnsignedOverflow => "leb128: unsigned LEB128 overflow"
  | .lebSignedOverflow => "leb128: signed LEB128 overflow"
  | .lebRange => "leb128: value exceeds 32 bits"
  | .mappingCounts pcToDex total => s!"mapping table: pc2dex count {pcToDex} exceeds total {total}"
  | .mappingTrailing count => s!"mapping table: {count} trailing bytes"
  | .referenceMapHeader => "native gc map: missing header"
  | .referenceMapSize actual implied => s!"native gc map: {actual} bytes, header implies {implied}"
  | .verifierMapHeader => "dex gc map: missing header"
  | .verifierMapFormat format => s!"dex gc map: unknown format {format}"
  | .verifierMapSize actual implied => s!"dex gc map: {actual} bytes, header implies {implied}"
  | .switchTargets resolved cases => s!"switch table: {resolved} targets resolved for {cases} cases"
  | .pointerInvokeKind operand => "pointer literal: invoke type " ++ toString operand.toInt
  | .switchTableIndex dexPc table =>
    "method description: switch at " ++ hexMarked dexPc.toNat ++ s!" names table {table}"
  | .methodName quoted => "method description: method name " ++ quoted ++ " is not a plain file name"

def MappingMismatch.message : MappingMismatch → String
  | .wrongEntry id expected found =>
    instrName id ++ " expects " ++ expected.text ++ ", table has " ++ found.text
  | .endsBefore id => "table ends before " ++ instrName id
  | .surplus => "table has entries with no marker"

def ImagePart.text : ImagePart → String
  | .literalPool => "literal pool"
  | .wordLiteral => "word literal"
  | .pointerLiteral => "pointer literal"
  | .switchTable => "switch table"
  | .fillArray => "fill-array-data"
  | .imageEnd => "end of image"

/-- The sentence that reports an error. What a file system or a text reader would add is left out. -/
def Error.message : Error → String
  | .arenaExhausted limit => s!"LIR arena exhausted: limit of {limit} instructions reached"
  | .listCorrupted defect => "instruction list corrupted: " ++ defect.message
  | .nonMonotonicOffset kind previous offset =>
    kind.text ++ " native offsets out of order: " ++ hexMarked offset.toNat ++ " follows " ++
      hexMarked previous.toNat
  | .referenceMapFull capacity => s!"reference map is full: all {capacity} slots are in use"
  | .missingReferenceBitmap dexPc => "missing reference bitmap for dex pc " ++ hexMarked dexPc.toNat
  | .bitmapWidthMismatch expected actual =>
    s!"reference bitmap has {actual} bytes, table expects {expected}"
  | .limitExceeded what value limit => what.text ++ s!" {value} does not fit (limit {limit})"
  | .invalidPayload ident => "invalid payload ident 0x" ++ hexPadded 4 ident.toNat
  | .truncatedPayload needed available => s!"payload truncated: need {needed} code units, have {available}"
  | .missingBlockLabel dexPc => "no block label for dex offset " ++ hexMarked dexPc.toNat
  | .missingSwitchAnchor dexPc =>
    "switch table at dex offset " ++ hexMarked dexPc.toNat ++ " has no anchor instruction"
  | .malformed defect => "malformed " ++ defect.message
  | .mappingMismatch cause => "mapping table mismatch: " ++ cause.message
  | .layoutMismatch part expected actual =>
    "data layout mismatch: " ++ part.text ++ " expected at " ++ hexMarked expected.toNat ++
      ", buffer is at " ++ hexMarked actual.toNat
  | .fileAccess => "I/O error"
  | .unreadableConfig => "failed to parse config"
  | .unwritableConfig => "failed to serialize config"
  | .unreadableDescription => "invalid method description"

end MethodAssembler
