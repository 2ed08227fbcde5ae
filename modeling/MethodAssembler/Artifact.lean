import MethodAssembler.Description.Document
import MethodAssembler.Description.Compile
import MethodAssembler.Json.Printer
import MethodAssembler.Text

/-! # Artifacts

A compiled method as it is stored: its name and number, its code and tables, and the patches and findings that belong to
it, as a JSON document. The document of a method is named after it, so a method needs a plain file name. -/

namespace MethodAssembler
open Json

/-! ### Parts of an artifact -/

def MethodContext.toJson (c : MethodContext) : Json :=
  .record [("dex_file", .ofWord c.dexFile), ("class_def_idx", .ofWord c.classDefIndex),
    ("method_idx", .ofWord c.methodIndex), ("invoke_type", c.invokeKind.toJson)]

def MethodContext.ofJson? (j : Json) : Option MethodContext := do
  let [dexFile, classDef, method, kind] ← j.record? ["dex_file", "class_def_idx", "method_idx", "invoke_type"] | none
  return ⟨← required? uint32? dexFile, ← required? uint32? classDef, ← required? uint32? method,
    ← required? InvokeKind.ofJson? kind⟩

def PatchKind.name : PatchKind → String
  | .code => "code"
  | .method => "method"

def PatchKind.ofJson? (j : Json) : Option PatchKind := do
  let name ← j.name?
  [PatchKind.code, .method].find? (·.name == name)

def Patch.toJson (p : Patch) : Json :=
  .record [("kind", .ofString p.kind.name), ("context", p.context.toJson),
    ("target_method_idx", .ofWord p.targetIndex), ("target_invoke_type", p.targetKind.toJson),
    ("literal_offset", .ofWord p.literalOffset)]

def Patch.ofJson? (j : Json) : Option Patch := do
  let [kind, context, target, targetKind, offset] ←
    j.record? ["kind", "context", "target_method_idx", "target_invoke_type", "literal_offset"] | none
  return ⟨← required? PatchKind.ofJson? kind, ← required? MethodContext.ofJson? context,
    ← required? uint32? target, ← required? InvokeKind.ofJson? targetKind, ← required? uint32? offset⟩

namespace Diagnostic

def toJson : Diagnostic → Json
  | .unexpectedCatchEntry pc => .record [("unexpected-catch-entry", .record [("dex_pc", .ofWord pc)])]
  | .missingCatchEntry pc => .record [("missing-catch-entry", .record [("dex_pc", .ofWord pc)])]

def ofJson? : Json → Option Diagnostic
  | .object [(some name, fields)] => do
    let [dexPc] ← fields.record? ["dex_pc"] | none
    let dexPc ← required? uint32? dexPc
    match name with
    | "unexpected-catch-entry" => return .unexpectedCatchEntry dexPc
    | "missing-catch-entry" => return .missingCatchEntry dexPc
    | _ => none
  | _ => none

end Diagnostic

def CompiledMethod.toJson (m : CompiledMethod) : Json :=
  .record [("instruction_set", m.instructionSet.toJson), ("code", .ofBytes m.code.toList),
    ("frame_size_in_bytes", .ofWord m.frameSize), ("core_spill_mask", .ofWord m.coreSpillMask),
    ("fp_spill_mask", .ofWord m.fpSpillMask), ("mapping_table", .ofBytes m.mappingTable.toList),
    ("vmap_table", .ofBytes m.vmapTable.toList), ("gc_map", .ofBytes m.referenceMap.toList)]

/-- A list of bytes. -/
def bytes? (j : Json) : Option Bytes := (j.list? uint8?).map (·.toArray)

def CompiledMethod.ofJson? (j : Json) : Option CompiledMethod := do
  let [isa, code, frameSize, core, fp, mapping, vmap, references] ←
    j.record? ["instruction_set", "code", "frame_size_in_bytes", "core_spill_mask", "fp_spill_mask",
      "mapping_table", "vmap_table", "gc_map"] | none
  return {
    instructionSet := ← required? InstructionSet.ofJson? isa
    code := ← required? bytes? code
    frameSize := ← required? uint32? frameSize
    coreSpillMask := ← required? uint32? core
    fpSpillMask := ← required? uint32? fp
    mappingTable := ← required? bytes? mapping
    vmapTable := ← required? bytes? vmap
    referenceMap := ← required? bytes? references }

/-! ### Artifacts -/

structure Artifact where
  name : String
  methodIndex : UInt32
  compiled : CompiledMethod
  patches : List Patch := []
  diagnostics : List Diagnostic := []
deriving DecidableEq, Repr

namespace Artifact

def toJson (a : Artifact) : Json :=
  .record [("name", .ofString a.name), ("method_idx", .ofWord a.methodIndex), ("compiled", a.compiled.toJson),
    ("patches", .array (a.patches.map (·.toJson))), ("diagnostics", .array (a.diagnostics.map (·.toJson)))]

def ofJson? (j : Json) : Option Artifact := do
  let [name, method, compiled, patches, diagnostics] ←
    j.record? ["name", "method_idx", "compiled", "patches", "diagnostics"] | none
  return {
    name := ← required? text? name
    methodIndex := ← required? uint32? method
    compiled := ← required? CompiledMethod.ofJson? compiled
    patches := ← optional? (list? Patch.ofJson?) [] patches
    diagnostics := ← optional? (list? Diagnostic.ofJson?) [] diagnostics }

/-- The stored document. -/
def document (a : Artifact) : String := a.toJson.pretty

/-- Reads a stored document. -/
def parse (text : String) : Except Error Artifact :=
  match (Json.parse? text).bind ofJson? with
  | some a => .ok a
  | none => .error .unreadableDescription

/-- Whether a name can stand for a file in a directory. -/
def isPlainName (name : String) : Bool :=
  name != "" && name != "." && name != ".." && name.all fun c => c != '/' && c != '\\'

/-- A path inside a directory. -/
def joinPath (directory file : String) : String :=
  if directory.isEmpty || directory.endsWith "/" then directory ++ file else directory ++ "/" ++ file

/-- Where the document of a method is stored. -/
def path (directory name : String) : Except Error String :=
  if isPlainName name then .ok (joinPath directory (name ++ ".compiled.json"))
  else .error (.malformed (.methodName (Text.quoted name)))

end Artifact

end MethodAssembler
