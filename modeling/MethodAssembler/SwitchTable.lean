import MethodAssembler.Event
import MethodAssembler.Fault

/-! # Switch tables

A switch payload is a sequence of 16-bit units: an ident, the number of cases, and then for a packed switch the first
key and one target per case, for a sparse switch all keys and then all targets. Keys and targets are signed words,
low unit first, and a target is relative to the source PC of the switch instruction. -/

namespace MethodAssembler
open Text

/-! ### Words in units -/

/-- The word at two neighbouring units. -/
def wordAt (units : Array UInt16) (place : Nat) : Checked Int32 := do
  let low ← present units[place]?
  let high ← present units[place + 1]?
  return (UInt32.ofNat (low.toNat + 65536 * high.toNat)).toInt32

/-- A word as two units. -/
def unitsOfWord (value : Int32) : List UInt16 :=
  [.ofNat (value.toUInt32.toNat % 65536), .ofNat (value.toUInt32.toNat / 65536)]

/-- Refuses a payload that is too short. -/
def requireUnits (units : Array UInt16) (needed : Nat) : Checked Unit :=
  if units.size < needed then .error (.refused (.truncatedPayload needed units.size)) else .ok ()

/-! ### Payloads -/

inductive SwitchKind where
  | packed
  | sparse
deriving DecidableEq, Repr

structure SwitchPayload where
  kind : SwitchKind
  units : Array UInt16
deriving DecidableEq, Repr

namespace SwitchPayload

def packedIdent : UInt16 := 0x0100
def sparseIdent : UInt16 := 0x0200

/-- Takes a sequence of units for a payload if its ident is known and it is long enough; more units may follow. -/
def parse (units : Array UInt16) : Checked SwitchPayload := do
  requireUnits units 2
  let ident ← present units[0]?
  let cases ← present units[1]?
  if ident = packedIdent then
    requireUnits units (4 + cases.toNat * 2)
    return ⟨.packed, units⟩
  else if ident = sparseIdent then
    requireUnits units (2 + cases.toNat * 4)
    return ⟨.sparse, units⟩
  else throw (.refused (.invalidPayload ident))

/-- The payload of a packed switch. The number of cases is stored in 16 bits. -/
def packed (firstKey : Int32) (targets : List Int32) : SwitchPayload :=
  ⟨.packed, (packedIdent :: .ofNat targets.length :: unitsOfWord firstKey ++ targets.flatMap unitsOfWord).toArray⟩

/-- The payload of a sparse switch with its cases in the given order. The number of cases is stored in 16 bits. -/
def sparse (cases : List (Int32 × Int32)) : SwitchPayload :=
  ⟨.sparse, (sparseIdent :: .ofNat cases.length :: cases.flatMap (unitsOfWord ·.1) ++
    cases.flatMap (unitsOfWord ·.2)).toArray⟩

/-- The number of cases. -/
def size (p : SwitchPayload) : Nat := (p.units.getD 1 0).toNat

/-- The key of a case; the keys of a packed switch follow the first one. -/
def key (p : SwitchPayload) (i : Nat) : Checked Int32 :=
  match p.kind with
  | .packed => return (← wordAt p.units 2) + .ofNat i
  | .sparse => wordAt p.units (2 + i * 2)

/-- The target of a case, relative to the switch instruction. -/
def relativeTarget (p : SwitchPayload) (i : Nat) : Checked Int32 :=
  match p.kind with
  | .packed => wordAt p.units (4 + i * 2)
  | .sparse => wordAt p.units (2 + p.size * 2 + i * 2)

/-- How many bytes a case takes in the code image: a displacement, and for a sparse switch its key before it. -/
def caseBytes (p : SwitchPayload) : Nat :=
  match p.kind with
  | .packed => 4
  | .sparse => 8

/-- How many bytes the table takes in the code image. -/
def installedSize (p : SwitchPayload) : UInt32 := .ofNat (p.size * p.caseBytes)

/-- One line for the payload and one for each case. -/
def listing (p : SwitchPayload) : Checked (List Event) := do
  let ident := "ident:0x" ++ hex (p.units.getD 0 0).toNat
  let cases := ", entries: " ++ toString p.size
  let head ← match p.kind with
    | .packed =>
      pure ("Packed switch table - " ++ ident ++ cases ++ ", low_key: " ++ toString (← p.key 0).toInt)
    | .sparse => pure ("Sparse switch table - " ++ ident ++ cases)
  let lines ← (List.range p.size).mapM fun i =>
    return "  Key[" ++ toString (← p.key i).toInt ++ "] -> 0x" ++ hexInt32 (← p.relativeTarget i)
  return (head :: lines).map .debug

end SwitchPayload

/-! ### Tables -/

/-- A switch of the method: its payload, where it is used, and what became of its cases. -/
structure SwitchTable where
  payload : SwitchPayload
  /-- The source PC of the switch instruction. -/
  dexPc : UInt32
  /-- The instruction that dispatches through this table. -/
  anchor : Option InstrId := none
  /-- The instruction that each case leads to, once the cases are resolved. -/
  targets : Array InstrId := #[]
  offset : UInt32 := 0
deriving DecidableEq, Repr

/-- The source PC that a case leads to, modulo 32 bits. -/
def SwitchTable.caseDexPc (t : SwitchTable) (i : Nat) : Checked UInt32 :=
  return t.dexPc + (← t.payload.relativeTarget i).toUInt32

end MethodAssembler
