import MethodAssembler.Fault

/-! # Configuration

For which machine methods are assembled and what is checked and listed on the way. -/

namespace MethodAssembler

inductive InstructionSet where
  | thumb2
  | x86
  | mips
deriving DecidableEq, Repr, Inhabited

/-- Where the displacements of a switch table are measured from. -/
inductive BranchOrigin where
  /-- The dispatching instruction, and as far behind it as the machine's PC is ahead. -/
  | anchorPlusAdvance (advance : UInt32)
  /-- The dispatching instruction. -/
  | anchor
  /-- The table itself. -/
  | tableStart
  /-- The start of the method. -/
  | methodStart
deriving DecidableEq, Repr

/-- The names of the origins that take no advance. -/
def BranchOrigin.names : List (String × BranchOrigin) :=
  [("anchor", .anchor), ("table-start", .tableStart), ("method-start", .methodStart)]

def BranchOrigin.name? (origin : BranchOrigin) : Option String := (names.find? (·.2 == origin)).map (·.1)

namespace InstructionSet

def name : InstructionSet → String
  | .thumb2 => "thumb2"
  | .x86 => "x86"
  | .mips => "mips"

def all : List InstructionSet := [.thumb2, .x86, .mips]

def ofName? (s : String) : Option InstructionSet := all.find? (·.name == s)

/-- The width of a pointer in bytes; all machines here have 32 bits. -/
def pointerSize : InstructionSet → UInt32
  | .thumb2 | .x86 | .mips => 4

/-- Thumb2 reads its PC four bytes ahead; x86 computes targets from the start of the method. -/
def branchOrigin : InstructionSet → BranchOrigin
  | .thumb2 => .anchorPlusAdvance 4
  | .x86 => .methodStart
  | .mips => .anchor

end InstructionSet

structure Config where
  instructionSet : InstructionSet := .thumb2
  /-- Keep instructions turned into nops in the list, for listings. -/
  retainNops : Bool := false
  /-- Report listings and tables, and give each switch case a label of its own. -/
  verbose : Bool := false
  /-- Read each mapping table back and compare it with the instructions. -/
  verifyTables : Bool := true
  /-- How many instructions a method may have. -/
  maxInstructions : Option Nat := none
  /-- An origin for switch displacements other than that of the instruction set. -/
  switchOrigin : Option BranchOrigin := none
deriving DecidableEq, Repr

def Config.branchOrigin (c : Config) : BranchOrigin := c.switchOrigin.getD c.instructionSet.branchOrigin

end MethodAssembler
