import MethodAssembler.CommandLine.Arguments
import MethodAssembler.CommandLine.Host
import MethodAssembler.CommandLine.Inspection
import MethodAssembler.Config.Document

/-! # Running commands

`assemble` compiles descriptions and stores their artifacts, `inspect` prints an artifact, and `init-config` stores the
default configuration. Every run ends with an exit code: zero for success, one for a failure that was reported, and
101 for a trap. -/

namespace MethodAssembler.CommandLine

variable {m : Type → Type} [Monad m]

/-- The configuration that is read if none is named. -/
def configFile : String := "lirasm.toml"

/-- Reads a document, whose text `parse` understands. -/
def load {α : Type} (host : Host m) (parse : String → Except Error α) (path : String) : m (Except Error α) := do
  match ← host.readText path with
  | some text => return parse text
  | none => return .error .fileAccess

/-- The configuration that is named, or else the one in the usual place, or else the default. -/
def loadConfig (host : Host m) (path : Option String) : m (Except Error Config) := do
  match path with
  | some path => load host Config.parse path
  | none =>
    if ← host.isThere configFile then load host Config.parse configFile
    else return .ok {}

/-- A configuration as the options change it. -/
def AssembleOptions.configure (o : AssembleOptions) (c : Config) : Config :=
  { c with
    instructionSet := o.instructionSet.getD c.instructionSet
    retainNops := c.retainNops || o.retainNops
    verbose := c.verbose || o.verbose }

/-! ### Assembling -/

/-- How the compilation of a file went; what could not be read has no description. -/
structure FileResult where
  file : String
  description : Option Description := none
  outcome : Checked MethodOutput
  /-- How many patches were recorded. -/
  patches : Nat := 0

/-- Compiles a file and reports the events, those for debugging only if the options say so. -/
def compileFile (host : Host m) (config : Config) (verbose : Bool) (file : String) : m FileResult := do
  match ← load host Description.parse file with
  | .error e => return { file, outcome := .error (.refused e) }
  | .ok d =>
    let c := d.compile config
    (c.events.filter fun e => verbose || e.level != .debug).forM host.report
    return { file, description := some d, outcome := c.outcome, patches := c.patches.size }

/-- The artifact of a compiled description. -/
def artifactOf (d : Description) (out : MethodOutput) : Artifact where
  name := d.name
  methodIndex := d.context.methodIndex
  compiled := out.method
  patches := out.patches.toList
  diagnostics := out.diagnostics

/-- What is printed about a stored artifact. -/
def storedLines (a : Artifact) (path : String) : List String :=
  (a.diagnostics.map fun d => a.name ++ ": " ++ d.text) ++
    [a.name ++ ": " ++ toString a.compiled.code.size ++ " bytes, frame " ++ toString a.compiled.frameSize.toNat ++
      ", " ++ toString a.patches.length ++ " patches -> " ++ path]

/-- Stores an artifact, or says why not. -/
def store (host : Host m) (outDirectory : String) (file : String) (a : Artifact) : m Bool := do
  match Artifact.path outDirectory a.name with
  | .error e =>
    host.complain ("error: " ++ file ++ ": " ++ e.message)
    return false
  | .ok path =>
    if ← host.writeText path a.document then
      (storedLines a path).forM host.print
      return true
    else
      host.complain ("error: " ++ path ++ ": " ++ Error.message .fileAccess)
      return false

/-- Stores what a compilation made, or says what went wrong. -/
def settle (host : Host m) (outDirectory : String) (r : FileResult) : m Bool := do
  match r.outcome, r.description with
  | .ok out, some d => store host outDirectory r.file (artifactOf d out)
  | .error (.refused e), _ =>
    host.complain ("error: " ++ r.file ++ ": " ++ e.message)
    return false
  | _, _ =>
    host.complain ("error: " ++ r.file ++ ": compilation panicked")
    return false

/-- Compiles all files, then stores what they gave, and counts both. -/
def assembleAll (host : Host m) (config : Config) (o : AssembleOptions) (outDirectory : String) : m Nat := do
  let results ← o.files.mapM (compileFile host config o.verbose)
  let stored ← results.mapM (settle host outDirectory)
  host.print (toString (stored.countP id) ++ " methods compiled, " ++ toString (results.map (·.patches)).sum ++
    " patches recorded")
  return if stored.all id then 0 else 1

def assemble (host : Host m) (o : AssembleOptions) : m Nat := do
  match ← loadConfig host o.config with
  | .error e =>
    host.complain ("error: " ++ e.message)
    return 1
  | .ok config =>
    let outDirectory := o.outDirectory.getD "."
    if ← host.makeDirectories outDirectory then
      assembleAll host (o.configure config) o outDirectory
    else
      host.complain ("error: failed to create " ++ outDirectory)
      return 1

/-! ### The other commands -/

def inspect (host : Host m) (file : String) : m Nat := do
  match ← load host Artifact.parse file with
  | .error e =>
    host.complain ("error: " ++ file ++ ": " ++ e.message)
    return 1
  | .ok a =>
    let result := a.inspect #[]
    (Stateful.reached result).forM host.print
    match Stateful.outcome result with
    | .ok _ => return 0
    | .error (.refused e) =>
      host.complain ("error: " ++ file ++ ": " ++ e.message)
      return 1
    | .error .trap => return 101

/-- Stores the default configuration where nothing is yet. -/
def initConfig (host : Host m) (path : Option String) : m Nat := do
  let path := path.getD configFile
  if ← host.isThere path then
    host.complain ("error: " ++ path ++ " already exists")
    return 1
  else
    match Config.document {} with
    | .error e =>
      host.complain ("error: " ++ e.message)
      return 1
    | .ok text =>
      if ← host.writeText path text then
        host.print ("Created " ++ path)
        return 0
      else
        host.complain ("error: " ++ Error.message .fileAccess)
        return 1

/-- Runs a command and returns the exit code. -/
def Command.run (host : Host m) : Command → m Nat
  | .assemble o => CommandLine.assemble host o
  | .inspect file => CommandLine.inspect host file
  | .initConfig path => CommandLine.initConfig host path

end MethodAssembler.CommandLine
