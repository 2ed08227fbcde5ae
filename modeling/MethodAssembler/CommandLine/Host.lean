import MethodAssembler.Event
import MethodAssembler.FileTree

/-! # Hosts

What a program run needs from its surroundings: files, and a place for its output. A host can be the operating system, or
a file tree together with a record of what was written, about which statements can be made. -/

namespace MethodAssembler.CommandLine

structure Host (m : Type → Type) where
  /-- The text of a file, if it can be read. -/
  readText : String → m (Option String)
  /-- Whether there is a file or directory. -/
  isThere : String → m Bool
  /-- Makes a directory and those above it, and tells whether it is there now. -/
  makeDirectories : String → m Bool
  /-- Writes a file, and tells whether that worked. -/
  writeText : String → String → m Bool
  /-- Writes a line of output. -/
  print : String → m Unit
  /-- Writes an error message. -/
  complain : String → m Unit
  /-- Takes note of an event. -/
  report : Event → m Unit

/-- What goes to the error stream. -/
inductive Notice where
  | error (message : String)
  | event (e : Event)
deriving DecidableEq, Repr

/-- A file tree and all that was written. -/
structure Record where
  tree : FileTree := .fresh
  output : Array String := #[]
  notices : Array Notice := #[]
deriving Repr

/-- The host that keeps a record. -/
def Host.recording : Host (StateM Record) where
  readText path := do return (← get).tree.read? path
  isThere path := do return (← get).tree.contains path
  makeDirectories path := fun r =>
    let (tree, made) := r.tree.makeDirectories path
    (made, { r with tree })
  writeText path text := fun r =>
    match r.tree.write? path text with
    | some tree => (true, { r with tree })
    | none => (false, r)
  print line := modify fun r => { r with output := r.output.push line }
  complain message := modify fun r => { r with notices := r.notices.push (.error message) }
  report e := modify fun r => { r with notices := r.notices.push (.event e) }

end MethodAssembler.CommandLine
