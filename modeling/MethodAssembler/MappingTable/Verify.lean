import MethodAssembler.MappingTable.Basic
import MethodAssembler.SortedWords

/-! # Checking mapping tables

A table is compared with the markers of the instruction list that it was made from, and its exported PCs with the
declared entries of exception handlers. The first comparison refuses a table; the second only makes findings. -/

namespace MethodAssembler
open Text

/-- What is odd about the exported PCs of a method. -/
inductive Diagnostic where
  /-- A PC is exported that is not the entry of a handler, or is exported once more. -/
  | unexpectedCatchEntry (dexPc : UInt32)
  /-- The entry of a handler is not exported. -/
  | missingCatchEntry (dexPc : UInt32)
deriving DecidableEq, Repr

namespace Diagnostic

def dexPc : Diagnostic → UInt32
  | .unexpectedCatchEntry pc | .missingCatchEntry pc => pc

def text : Diagnostic → String
  | .unexpectedCatchEntry pc => "unexpected catch entry @ dex pc 0x" ++ hex pc.toNat
  | .missingCatchEntry pc => "missing native PC for catch entry @ 0x" ++ hex pc.toNat

/-- The event that reports a finding. -/
def event : Diagnostic → Event
  | .unexpectedCatchEntry pc => .warn ("Unexpected catch entry @ dex pc 0x" ++ hex pc.toNat)
  | .missingCatchEntry pc => .warn ("Missing native PC for catch entry @ 0x" ++ hex pc.toNat)

end Diagnostic

namespace MappingTable

/-- Takes the entries of a table off one by one as the markers are met. -/
def matchMarkers : List (InstrId × MappingKind × MappingEntry) → Blocks (List MappingEntry) → Checked Unit
  | [], b =>
    if b.pcToDex.isEmpty && b.dexToPc.isEmpty then .ok ()
    else .error (.refused (.mappingMismatch .surplus))
  | (id, kind, expected) :: rest, b =>
    match b.get kind with
    | [] => .error (.refused (.mappingMismatch (.endsBefore id)))
    | found :: left =>
      if found = expected then matchMarkers rest (b.set kind left)
      else .error (.refused (.mappingMismatch (.wrongEntry id expected found)))

/-- Checks that a table spells exactly the markers of a list. -/
def verify (data : Bytes) (l : InstrList) : Checked Unit := do
  let t ← decode data
  matchMarkers l.markers ⟨t.pcToDex, t.dexToPc⟩

/-- Compares exported PCs with the entries of handlers, both ascending. A handler answers for one export of its
    entry. -/
def matchCatches : (catches exported : List UInt32) → List Diagnostic
  | [], exported => exported.map .unexpectedCatchEntry
  | entry :: catches, exported =>
    (exported.takeWhile (· < entry)).map .unexpectedCatchEntry ++
      match exported.dropWhile (· < entry) with
      | [] => .missingCatchEntry entry :: matchCatches catches []
      | pc :: rest =>
        if pc = entry then matchCatches catches rest
        else .missingCatchEntry entry :: matchCatches catches (pc :: rest)

/-- What is odd about the exported PCs of a table, given the entries of handlers in ascending order. -/
def checkCatches (t : MappingTable) (catches : List UInt32) : List Diagnostic :=
  matchCatches catches (SortedWords.sort (t.dexToPc.map (·.dexPc)))

/-! ### Listing -/

def blockListing (title name : String) (entries : List MappingEntry) : List Event :=
  if entries.isEmpty then []
  else
    .debug (title ++ " " ++ name ++ "[" ++ toString entries.length ++ "] = \x7b") ::
      (entries.map fun e =>
        .debug ("    \x7b0x" ++ hexPadded 5 e.nativeOffset.toNat ++ ", 0x" ++ hexPadded 4 e.dexPc.toNat ++ "\x7d,")) ++
      [.debug "  \x7d;"]

/-- Both blocks of a table under the name of its method; an empty block is left out. -/
def listing (t : MappingTable) (name : String) : List Event :=
  blockListing "PC2Dex_MappingTable" name t.pcToDex ++ blockListing "Dex2PC_MappingTable" name t.dexToPc

end MappingTable

end MethodAssembler
