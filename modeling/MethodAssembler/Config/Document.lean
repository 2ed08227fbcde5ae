import MethodAssembler.Config
import MethodAssembler.Error
import MethodAssembler.Toml.Document

/-! # Configuration documents

A configuration is stored as a TOML document. Settings that are left out have their default, and unknown ones do not
matter. -/

namespace MethodAssembler
open Toml

/-! ### Reading -/

namespace Toml.Value

def boolean? : Value → Option Bool
  | .boolean b => some b
  | _ => none

/-- An integer from zero up to a bound. -/
def natBelow? (bound : Nat) : Value → Option Nat
  | .integer n => if 0 ≤ n ∧ n < bound then some n.toNat else none
  | _ => none

/-- Whether a value holds nothing, as behind the name of an alternative that takes no value. -/
def isHollow : Value → Bool
  | .array [] | .table _ [] => true
  | _ => false

/-- One of several alternatives: its name, and the value given to it. -/
def choice? : Value → Option (String × Option Value)
  | .string name => some (name, none)
  | .table _ [(name, v)] => some (name, some v)
  | _ => none

/-- The name of an alternative that takes no value. -/
def name? (v : Value) : Option String :=
  match v.choice? with
  | some (name, none) => some name
  | some (name, some v) => if v.isHollow then some name else none
  | none => none

end Toml.Value

def BranchOrigin.ofToml? (v : Value) : Option BranchOrigin :=
  match v.choice? with
  | some ("anchor-plus-advance", some advance) =>
    (advance.natBelow? UInt32.size).map fun n => .anchorPlusAdvance (.ofNat n)
  | _ => v.name?.bind fun name => names.lookup name

namespace Config

/-- The value of a setting, or its default. -/
def setting? {α : Type} (entries : Entries) (name : String) (absent : α) (value? : Value → Option α) : Option α :=
  match entries.lookup name with
  | none => some absent
  | some v => value? v

def ofEntries? (entries : Entries) : Option Config := do
  return {
    instructionSet := ← setting? entries "instruction-set" .thumb2 fun v => v.name?.bind InstructionSet.ofName?
    retainNops := ← setting? entries "retain-nops-for-diagnostics" false Value.boolean?
    verbose := ← setting? entries "verbose" false Value.boolean?
    verifyTables := ← setting? entries "verify-tables" true Value.boolean?
    maxInstructions := ← setting? entries "max-lir-count" none fun v => (v.natBelow? UInt64.size).map some
    switchOrigin := ← setting? entries "switch-branch-origin" none fun v => (BranchOrigin.ofToml? v).map some }

/-- Reads a stored configuration. -/
def parse (text : String) : Except Error Config :=
  match (Toml.parse? text).bind ofEntries? with
  | some c => .ok c
  | none => .error .unreadableConfig

/-! ### Writing -/

def settingLine (name value : String) : String := name ++ " = " ++ value ++ "\n"

def nameLine (name value : String) : String := settingLine name ("\"" ++ value ++ "\"")

/-- The line of an origin that takes no value, or the table of one that does. -/
def originLines (origin : BranchOrigin) : String :=
  match origin with
  | .anchorPlusAdvance advance =>
    "\n[switch-branch-origin]\n" ++ settingLine "anchor-plus-advance" (toString advance.toNat)
  | origin => (origin.name?.map (nameLine "switch-branch-origin")).getD ""

/-- The stored document; unset settings are left out. Integers have 64 bits, one of them for the sign. -/
def document (c : Config) : Except Error String :=
  if c.maxInstructions.any (2 ^ 63 ≤ ·) then .error .unwritableConfig
  else .ok (nameLine "instruction-set" c.instructionSet.name ++
    settingLine "retain-nops-for-diagnostics" (toString c.retainNops) ++
    settingLine "verbose" (toString c.verbose) ++ settingLine "verify-tables" (toString c.verifyTables) ++
    (c.maxInstructions.map fun n => settingLine "max-lir-count" (toString n)).getD "" ++
    (c.switchOrigin.map originLines).getD "")

end Config

end MethodAssembler
