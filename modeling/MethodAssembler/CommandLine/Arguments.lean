import MethodAssembler.Config

/-! # Arguments

What the command line asks for. Options may stand before, between and behind files, in long or short form, with their
value attached or behind them, and short ones in one word; an option may be given once. Behind "--" all arguments
are files. -/

namespace MethodAssembler.CommandLine

structure AssembleOptions where
  files : List String := []
  outDirectory : Option String := none
  /-- How many methods may be compiled at the same time. -/
  jobs : Option Nat := none
  config : Option String := none
  instructionSet : Option InstructionSet := none
  retainNops : Bool := false
  verbose : Bool := false
deriving DecidableEq, Repr

inductive Command where
  | assemble (options : AssembleOptions)
  | inspect (file : String)
  | initConfig (path : Option String)
deriving DecidableEq, Repr

/-- Why there is no command to run. -/
inductive Stop where
  /-- Help was asked for. -/
  | help
  /-- The arguments cannot be understood. -/
  | usage
deriving DecidableEq, Repr

abbrev Parsed := Except Stop

/-! ### Values -/

def required {α : Type} : Option α → Parsed α
  | some a => .ok a
  | none => .error .usage

/-- A path is not empty. -/
def path? (s : String) : Option String := if s.isEmpty then none else some s

/-- A number of 64 bits, behind a plus at most. -/
def count? (s : String) : Option Nat := do
  let digits := match s.toList with
    | '+' :: rest => rest
    | cs => cs
  if digits.isEmpty || !digits.all (·.isDigit) then none
  let n := digits.foldl (fun n c => n * 10 + (c.toNat - '0'.toNat)) 0
  if n < 2 ^ 64 then some n else none

/-- Whether an argument is an option; a single hyphen is not. -/
def isOption (s : String) : Bool := s.startsWith "-" && s != "-"

/-! ### Options of `assemble` -/

/-- The options that take a value. -/
inductive Setting where
  | outDirectory
  | jobs
  | config
  | instructionSet
deriving DecidableEq, Repr

/-- The options that take none. -/
inductive Switch where
  | retainNops
  | verbose
  | help
deriving DecidableEq, Repr

def longSettings : List (String × Setting) :=
  [("out-dir", .outDirectory), ("jobs", .jobs), ("config", .config), ("isa", .instructionSet)]

def longSwitches : List (String × Switch) := [("retain-nops", .retainNops), ("verbose", .verbose), ("help", .help)]

def shortSettings : List (Char × Setting) := [('o', .outDirectory), ('j', .jobs)]

def shortSwitches : List (Char × Switch) := [('v', .verbose), ('h', .help)]

namespace AssembleOptions

/-- Sets what may be set once. -/
def once {α : Type} (old : Option α) (new : Option α) : Parsed (Option α) :=
  match old, new with
  | none, some a => .ok (some a)
  | _, _ => .error .usage

def set (o : AssembleOptions) (setting : Setting) (value : String) : Parsed AssembleOptions :=
  match setting with
  | .outDirectory => return { o with outDirectory := ← once o.outDirectory (path? value) }
  | .jobs => return { o with jobs := ← once o.jobs (count? value) }
  | .config => return { o with config := ← once o.config (path? value) }
  | .instructionSet => return { o with instructionSet := ← once o.instructionSet (InstructionSet.ofName? value) }

def turnOn (o : AssembleOptions) : Switch → Parsed AssembleOptions
  | .retainNops => if o.retainNops then .error .usage else .ok { o with retainNops := true }
  | .verbose => if o.verbose then .error .usage else .ok { o with verbose := true }
  | .help => .error .help

def addFile (o : AssembleOptions) (file : String) : Parsed AssembleOptions := do
  return { o with files := o.files ++ [← required (path? file)] }

/-- Reads a word of short options. An option that takes a value takes the rest of the word, or, if there is none, is
    returned as still waiting for it. -/
def readShort (o : AssembleOptions) : List Char → Parsed (AssembleOptions × Option Setting)
  | [] => .ok (o, none)
  | c :: rest =>
    match shortSettings.lookup c with
    | some setting =>
      match rest with
      | [] => .ok (o, some setting)
      | '=' :: value => return (← o.set setting (String.ofList value), none)
      | value => return (← o.set setting (String.ofList value), none)
    | none => do readShort (← o.turnOn (← required (shortSwitches.lookup c))) rest

/-- Reads a long option; see `readShort`. -/
def readLong (o : AssembleOptions) (option : String) : Parsed (AssembleOptions × Option Setting) :=
  match option.splitOn "=" with
  | [name] =>
    match longSettings.lookup name with
    | some setting => .ok (o, some setting)
    | none => do return (← o.turnOn (← required (longSwitches.lookup name)), none)
  | name :: value => do
    return (← o.set (← required (longSettings.lookup name)) ("=".intercalate value), none)
  | [] => .error .usage

/-- Reads an option without its hyphens being told apart yet. -/
def readOption (o : AssembleOptions) (argument : String) : Parsed (AssembleOptions × Option Setting) :=
  match argument.toList with
  | '-' :: '-' :: name => o.readLong (String.ofList name)
  | _ :: cluster => o.readShort cluster
  | [] => .error .usage

/-- Reads arguments, an option of which may be waiting for its value. -/
def read : List String → AssembleOptions → (waiting : Option Setting) → Parsed AssembleOptions
  | [], o, none => .ok o
  | [], _, some _ => .error .usage
  | a :: rest, o, some setting =>
    if isOption a then .error .usage else do read rest (← o.set setting a) none
  | a :: rest, o, none =>
    if a = "--" then rest.foldlM addFile o
    else if isOption a then do
      let (o, waiting) ← o.readOption a
      read rest o waiting
    else do read rest (← o.addFile a) none

end AssembleOptions

/-! ### Commands -/

/-- Reads the files of a command that takes no options but the one for help, and at most `room` files. -/
def readFiles : List String → (room : Nat) → Parsed (List String)
  | [], _ => .ok []
  | a :: rest, room =>
    if a = "--" then
      if rest.length ≤ room then rest.mapM fun file => required (path? file) else .error .usage
    else if a = "--help" || a.startsWith "-h" then .error .help
    else if isOption a then .error .usage
    else
      match room with
      | 0 => .error .usage
      | room + 1 => return (← required (path? a)) :: (← readFiles rest room)

def Command.names : List String := ["assemble", "inspect", "init-config", "help"]

/-- What the arguments ask for. -/
def Command.parse : List String → Parsed Command
  | "assemble" :: rest => do
    let options ← AssembleOptions.read rest {} none
    if options.files.isEmpty then throw .usage
    return .assemble options
  | "inspect" :: rest => do
    match ← readFiles rest 1 with
    | [file] => return .inspect file
    | _ => throw .usage
  | "init-config" :: rest => do
    return .initConfig (← readFiles rest 1).head?
  | ["help"] | ["--help"] => throw .help
  | ["help", name] => throw (if names.contains name then .help else .usage)
  | a :: _ => throw (if a = "--help" || a.startsWith "-h" then .help else .usage)
  | [] => throw .usage

end MethodAssembler.CommandLine
