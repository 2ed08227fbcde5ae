import MethodAssembler.CommandLine.Run

/-! # The program

Runs the command that the arguments ask for on the files of the operating system. -/

namespace MethodAssembler.CommandLine

/-- Whether an action ends without an error. -/
def succeeds (action : IO Unit) : IO Bool := do
  try
    action
    return true
  catch _ => return false

/-- The operating system. -/
def Host.system : Host IO where
  readText path := do
    try
      return some (← IO.FS.readFile path)
    catch _ => return none
  isThere path := succeeds (discard (IO.FS.Handle.mk path .read))
  makeDirectories path := succeeds (IO.FS.createDirAll path)
  writeText path text := succeeds (IO.FS.writeFile path text)
  print := IO.println
  complain := IO.eprintln
  report e := IO.eprintln e.alignedLine

/-- What is printed when help is asked for, or when it seems to be needed. -/
def usage : String :=
  "Assemble low-level IR methods into compiled method artifacts\n\n" ++
  "Usage:\n" ++
  "  lirasm assemble [-o DIR] [-j N] [--config FILE] [--isa thumb2|x86|mips] [--retain-nops] [-v] FILES...\n" ++
  "  lirasm inspect FILE\n" ++
  "  lirasm init-config [PATH]"

end MethodAssembler.CommandLine

open MethodAssembler.CommandLine in
def main (arguments : List String) : IO UInt32 := do
  match Command.parse arguments with
  | .error .help =>
    IO.println usage
    return 0
  | .error .usage =>
    IO.eprintln usage
    return 2
  | .ok command => return .ofNat (← command.run Host.system)
