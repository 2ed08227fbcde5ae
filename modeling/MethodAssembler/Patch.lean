import MethodAssembler.InvokeKind

/-! # Patches

A pointer in the code of a method is a placeholder. For each one a patch tells the linker where it stands and what it
points to. Patches are recorded in the order in which they arise; one record may serve many methods, each of
which also keeps a record of its own. -/

namespace MethodAssembler

/-- The identity of the method being assembled. -/
structure MethodContext where
  dexFile : UInt32 := 0
  classDefIndex : UInt32 := 0
  methodIndex : UInt32 := 0
  invokeKind : InvokeKind := .static
deriving DecidableEq, Repr

/-- Which pool a patched pointer stands in. -/
inductive PatchKind where
  | code
  | method
deriving DecidableEq, Repr

def PatchKind.text : PatchKind → String
  | .code => "Code"
  | .method => "Method"

structure Patch where
  kind : PatchKind
  context : MethodContext
  targetIndex : UInt32
  targetKind : InvokeKind
  /-- The offset of the placeholder in the code of its method. -/
  literalOffset : UInt32
deriving DecidableEq, Repr

/-- Patches in the order in which they were recorded. -/
abbrev PatchRecord := Array Patch

/-- The patches recorded for one method. -/
def PatchRecord.patchesFor (r : PatchRecord) (methodIndex : UInt32) : PatchRecord :=
  r.filter fun p => p.context.methodIndex = methodIndex

/-- A shared record, and the records of the methods that feed it. -/
structure PatchBoard where
  shared : PatchRecord := #[]
  own : Array PatchRecord := #[]
deriving Repr

namespace PatchBoard

/-- Opens an empty record for one more method. -/
def addMethod (b : PatchBoard) : PatchBoard := { b with own := b.own.push #[] }

/-- Records a patch on the shared record alone. -/
def share (b : PatchBoard) (p : Patch) : PatchBoard := { b with shared := b.shared.push p }

/-- Records a patch of one method: on its own record, and on the shared one. -/
def add (b : PatchBoard) (method : Nat) (p : Patch) : PatchBoard :=
  { shared := b.shared.push p, own := b.own.modify method (·.push p) }

end PatchBoard

end MethodAssembler
