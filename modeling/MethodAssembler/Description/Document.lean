import MethodAssembler.Description.Basic
import MethodAssembler.Json.Decode
import MethodAssembler.Json.Reader

/-! # Descriptions as documents

How a method description is written in JSON. Fields that have a default may be left out when a description is
read; all are there when it is written, but for an instruction set that is not given. -/

namespace MethodAssembler
open Json

/-! ### Names -/

def InvokeKind.ofName? (s : String) : Option InvokeKind := all.find? (·.name == s)

def InvokeKind.ofJson? (j : Json) : Option InvokeKind := j.name?.bind ofName?

def InstructionSet.ofJson? (j : Json) : Option InstructionSet := j.name?.bind ofName?

def InvokeKind.toJson (k : InvokeKind) : Json := .ofString k.name

def InstructionSet.toJson (s : InstructionSet) : Json := .ofString s.name

/-! ### Instructions -/

namespace StreamItem

/-- The fields of an instruction that invokes a method. -/
def invoke? (make : UInt16 → UInt32 → UInt32 → InvokeKind → StreamItem) (fields : Json) : Option StreamItem := do
  let [opcode, dexPc, target, kind] ← fields.record? ["opcode", "dex_pc", "target", "invoke_type"] | none
  return make (← required? uint16? opcode) (← required? uint32? dexPc) (← required? uint32? target)
    (← optional? (fun j => j.keptName?.bind InvokeKind.ofName?) .static kind)

def ofJson? (j : Json) : Option StreamItem := do
  let (name, fields) ← j.variant? "op"
  match name with
  | "label" =>
    let [dexPc] ← fields.record? ["dex_pc"] | none
    return .label (← required? uint32? dexPc)
  | "op" =>
    let [opcode, dexPc, operands, nop] ← fields.record? ["opcode", "dex_pc", "operands", "nop"] | none
    return .op (← required? uint16? opcode) (← required? uint32? dexPc)
      (← optional? (list? int32?) [] operands) (← optional? bool? false nop)
  | "call" =>
    let [opcode, dexPc, operands] ← fields.record? ["opcode", "dex_pc", "operands"] | none
    return .call (← required? uint16? opcode) (← required? uint32? dexPc)
      (← optional? (list? int32?) [] operands)
  | "invoke-code" => invoke? .invokeCode fields
  | "invoke-method" => invoke? .invokeMethod fields
  | "load-word" =>
    let [opcode, dexPc, value] ← fields.record? ["opcode", "dex_pc", "value"] | none
    return .loadWord (← required? uint16? opcode) (← required? uint32? dexPc) (← required? int32? value)
  | "load-wide" =>
    let [opcode, dexPc, low, high] ← fields.record? ["opcode", "dex_pc", "low", "high"] | none
    return .loadWide (← required? uint16? opcode) (← required? uint32? dexPc) (← required? int32? low)
      (← required? int32? high)
  | "switch" =>
    let [opcode, dexPc, table] ← fields.record? ["opcode", "dex_pc", "table"] | none
    return .switch (← required? uint16? opcode) (← required? uint32? dexPc) (← required? size? table)
  | "export-pc" =>
    let [dexPc] ← fields.record? ["dex_pc"] | none
    return .exportPc (← required? uint32? dexPc)
  | "align4" =>
    let [] ← fields.record? [] | none
    return .align4
  | _ => none

/-- An instruction with its name and the fields that most have. -/
def withOpcode (name : String) (opcode : UInt16) (dexPc : UInt32) (fields : List (String × Json)) : Json :=
  .record ([("op", .ofString name), ("opcode", .ofNat opcode.toNat), ("dex_pc", ofWord dexPc)] ++ fields)

def toJson : StreamItem → Json
  | .label dexPc => .record [("op", .ofString "label"), ("dex_pc", ofWord dexPc)]
  | .op opcode dexPc operands nop =>
    withOpcode "op" opcode dexPc [("operands", ofSigneds operands), ("nop", .bool nop)]
  | .call opcode dexPc operands => withOpcode "call" opcode dexPc [("operands", ofSigneds operands)]
  | .invokeCode opcode dexPc target kind =>
    withOpcode "invoke-code" opcode dexPc [("target", ofWord target), ("invoke_type", kind.toJson)]
  | .invokeMethod opcode dexPc target kind =>
    withOpcode "invoke-method" opcode dexPc [("target", ofWord target), ("invoke_type", kind.toJson)]
  | .loadWord opcode dexPc value => withOpcode "load-word" opcode dexPc [("value", ofSigned value)]
  | .loadWide opcode dexPc low high =>
    withOpcode "load-wide" opcode dexPc [("low", ofSigned low), ("high", ofSigned high)]
  | .switch opcode dexPc table => withOpcode "switch" opcode dexPc [("table", .ofNat table)]
  | .exportPc dexPc => .record [("op", .ofString "export-pc"), ("dex_pc", ofWord dexPc)]
  | .align4 => .record [("op", .ofString "align4")]

end StreamItem

/-! ### Parts of a description -/

namespace SwitchDescription

def ofJson? (j : Json) : Option SwitchDescription := do
  let (name, fields) ← j.variant? "kind"
  match name with
  | "packed" =>
    let [dexPc, firstKey, targets] ← fields.record? ["dex_pc", "first_key", "targets"] | none
    return .packed (← required? uint32? dexPc) (← required? int32? firstKey) (← required? (list? int32?) targets)
  | "sparse" =>
    let [dexPc, cases] ← fields.record? ["dex_pc", "cases"] | none
    return .sparse (← required? uint32? dexPc) (← required? (list? (pair? int32? int32?)) cases)
  | _ => none

def toJson : SwitchDescription → Json
  | .packed dexPc firstKey targets =>
    .record [("kind", .ofString "packed"), ("dex_pc", ofWord dexPc), ("first_key", ofSigned firstKey),
      ("targets", ofSigneds targets)]
  | .sparse dexPc cases =>
    .record [("kind", .ofString "sparse"), ("dex_pc", ofWord dexPc),
      ("cases", .array (cases.map fun (key, target) => .array [ofSigned key, ofSigned target]))]

end SwitchDescription

def FillDescription.ofJson? (j : Json) : Option FillDescription := do
  let [dexPc, elementWidth, data] ← j.record? ["dex_pc", "element_width", "data"] | none
  return ⟨← required? uint32? dexPc, ← required? uint16? elementWidth, ← required? (list? uint8?) data⟩

def FillDescription.toJson (f : FillDescription) : Json :=
  .record [("dex_pc", ofWord f.dexPc), ("element_width", .ofNat f.elementWidth.toNat), ("data", ofBytes f.data)]

def ReferenceSet.ofJson? (j : Json) : Option ReferenceSet := do
  let [dexPc, registers] ← j.record? ["dex_pc", "registers"] | none
  return ⟨← required? uint32? dexPc, ← optional? (list? size?) [] registers⟩

def ReferenceSet.toJson (s : ReferenceSet) : Json :=
  .record [("dex_pc", ofWord s.dexPc), ("registers", .array (s.registers.map .ofNat))]

/-- The fields of a frame; each is zero if it is left out. -/
def Frame.ofJson? (j : Json) : Option Frame := do
  let [registers, outs, temps, core, fp] ←
    j.record? ["num_regs", "num_outs", "num_compiler_temps", "core_spill_mask", "fp_spill_mask"] | none
  return ⟨← optional? uint32? 0 registers, ← optional? uint32? 0 outs, ← optional? uint32? 0 temps,
    ← optional? uint32? 0 core, ← optional? uint32? 0 fp⟩

def Frame.toJson (f : Frame) : Json :=
  .record [("num_regs", ofWord f.registers), ("num_outs", ofWord f.outs), ("num_compiler_temps", ofWord f.temps),
    ("core_spill_mask", ofWord f.coreSpillMask), ("fp_spill_mask", ofWord f.fpSpillMask)]

/-! ### Descriptions -/

namespace Description

def ofJson? (j : Json) : Option Description := do
  let [name, dexFile, classDef, method, kind, isa, instructions, switches, fills, catches, frame, core, fp,
      references] ←
    j.record? ["name", "dex_file", "class_def_idx", "method_idx", "invoke_type", "instruction_set", "instructions",
      "switches", "fill_arrays", "catches", "frame", "core_vmap", "fp_vmap", "references"] | none
  return {
    name := ← required? text? name
    context :=
      { dexFile := ← optional? uint32? 0 dexFile
        classDefIndex := ← optional? uint32? 0 classDef
        methodIndex := ← optional? uint32? 0 method
        invokeKind := ← optional? InvokeKind.ofJson? .static kind }
    instructionSet := ← optional? (nullable? InstructionSet.ofJson?) none isa
    instructions := ← required? (list? StreamItem.ofJson?) instructions
    switches := ← optional? (list? SwitchDescription.ofJson?) [] switches
    fillArrays := ← optional? (list? FillDescription.ofJson?) [] fills
    catches := ← optional? (list? uint32?) [] catches
    frame := ← optional? Frame.ofJson? {} frame
    coreVmap := ← optional? (list? uint32?) [] core
    fpVmap := ← optional? (list? uint32?) [] fp
    references := ← optional? (list? ReferenceSet.ofJson?) [] references }

/-- Reads a description. -/
def parse (text : String) : Except Error Description :=
  match (Json.parse? text).bind ofJson? with
  | some d => .ok d
  | none => .error .unreadableDescription

def toJson (d : Description) : Json :=
  .record ([("name", .ofString d.name), ("dex_file", ofWord d.context.dexFile),
      ("class_def_idx", ofWord d.context.classDefIndex), ("method_idx", ofWord d.context.methodIndex),
      ("invoke_type", d.context.invokeKind.toJson)] ++
    (d.instructionSet.map fun s => ("instruction_set", s.toJson)).toList ++
    [("instructions", .array (d.instructions.map (·.toJson))), ("switches", .array (d.switches.map (·.toJson))),
      ("fill_arrays", .array (d.fillArrays.map (·.toJson))), ("catches", ofWords d.catches),
      ("frame", d.frame.toJson), ("core_vmap", ofWords d.coreVmap), ("fp_vmap", ofWords d.fpVmap),
      ("references", .array (d.references.map (·.toJson)))])

end Description

end MethodAssembler
