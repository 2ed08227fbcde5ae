/-! # File trees

The files and directories that paths lead to. A path is walked part by part, from the root if it starts with a slash and
from the working directory otherwise: "." stays, ".." goes up, and any other part leads on only from a directory. -/

namespace MethodAssembler

/-- The names that lead from the root to a place. -/
abbrev Location := Array String

structure FileTree where
  files : List (Location × String) := []
  directories : List Location := []
deriving DecidableEq, Repr

/-- Why a path leads nowhere. -/
inductive PathFault where
  /-- A directory on the way is not there. -/
  | missing
  /-- A file stands where a directory should, or a name is not one. -/
  | unusable
deriving DecidableEq, Repr

namespace FileTree

/-- The working directory. Its last name cannot be spelled by a path, so other places lead there only by going up. -/
def workingDirectory : Location := #["tmp", ""]

/-- The directories of the root. -/
def rootNames : List String :=
  ["bin", "dev", "etc", "home", "lib", "opt", "proc", "root", "run", "sbin", "srv", "sys", "tmp", "usr", "var"]

/-- A tree with an empty working directory. The null device reads as an empty file. -/
def fresh : FileTree where
  files := [(#["dev", "null"], "")]
  directories := workingDirectory :: #[] :: rootNames.map fun name => #[name]

/-! ### Finding places -/

def isDirectoryAt (t : FileTree) (l : Location) : Bool := t.directories.contains l

def textAt? (t : FileTree) (l : Location) : Option String := t.files.lookup l

/-- Whether the system alone decides what is at a location. -/
def isSealed (l : Location) : Bool := l[0]? == some "proc" || l[0]? == some "sys"

/-- A name has at most 255 bytes and no zero byte. -/
def isName (s : String) : Bool := s.utf8ByteSize ≤ 255 && !s.toList.contains '\x00'

/-- A path has fewer bytes than this. -/
def pathLimit : Nat := 4096

/-- Goes one part further. The root lies above itself. -/
def step (t : FileTree) (l : Location) (part : String) : Except PathFault Location :=
  if t.isDirectoryAt l then
    if part = "." then .ok l
    else if part = ".." then .ok l.pop
    else if isName part then .ok (l.push part)
    else .error .unusable
  else if (t.textAt? l).isSome then .error .unusable
  else .error .missing

/-- Follows parts from a location on. The last one need not be there. -/
def follow (t : FileTree) (l : Location) (parts : List String) : Except PathFault Location := parts.foldlM t.step l

/-- The parts of a path, without empty ones. -/
def parts (path : String) : List String := ((path.toList.splitOn '/').map String.ofList).filter (· != "")

/-- Where the walk along a path starts. -/
def startOf (path : String) : Location := if path.startsWith "/" then #[] else workingDirectory

/-- The place that a path leads to. A path that ends in a slash leads to a directory or nowhere. -/
def locate (t : FileTree) (path : String) : Except PathFault Location :=
  if path.isEmpty then .error .missing
  else if pathLimit ≤ path.utf8ByteSize then .error .unusable
  else t.follow (startOf path) (parts path ++ if path.endsWith "/" then ["."] else [])

/-! ### Reading -/

/-- The text of a file. -/
def read? (t : FileTree) (path : String) : Option String :=
  match t.locate path with
  | .ok l => t.textAt? l
  | .error _ => none

def isDirectory (t : FileTree) (path : String) : Bool :=
  match t.locate path with
  | .ok l => t.isDirectoryAt l
  | .error _ => false

/-- Whether a file or directory is there. -/
def contains (t : FileTree) (path : String) : Bool := t.isDirectory path || (t.read? path).isSome

/-! ### Writing -/

/-- Gives the file at a location a text. -/
def putText (t : FileTree) (l : Location) (text : String) : FileTree :=
  { t with files := (l, text) :: t.files.filter (·.1 != l) }

/-- Writes a file, in place of one that is there; there is no way to write a directory. -/
def write? (t : FileTree) (path text : String) : Option FileTree :=
  match t.locate path with
  | .ok l => if t.isDirectoryAt l || isSealed l then none else some (t.putText l text)
  | .error _ => none

/-- Goes one part further and makes a directory there if nothing is. -/
def enter (l : Location) (part : String) : EStateM PathFault FileTree Location := fun t =>
  match t.step l part with
  | .error fault => .error fault t
  | .ok next =>
    if t.isDirectoryAt next then .ok next t
    else if (t.textAt? next).isSome || isSealed next then .error .unusable t
    else .ok next { t with directories := next :: t.directories }

/-- The parts of a path at which directories may be made: all, but if the path ends in "." then not the part that this
    stands behind. -/
def madeParts (parts : List String) : List String :=
  match parts.reverse with
  | "." :: rest => (rest.dropWhile (· == ".")).tail.reverse
  | _ => parts

/-- Makes a directory and those above it, and tells whether it is there now. What was made stays if more cannot be
    made. -/
def makeDirectories (t : FileTree) (path : String) : FileTree × Bool :=
  if pathLimit ≤ path.utf8ByteSize then (t, false)
  else
    match (madeParts (parts path)).foldlM enter (startOf path) t with
    | .ok _ t => (t, t.isDirectory path)
    | .error _ t => (t, false)

/-! ### Given files -/

/-- A tree with one more file below the working directory, and the directories that it lies in. -/
def withFile (t : FileTree) (path text : String) : FileTree :=
  let l := workingDirectory ++ parts path
  let above := (List.range (l.size - 1)).map fun n => l.extract 0 (n + 1)
  { t.putText l text with directories := (t.directories ++ above).eraseDups }

end FileTree

end MethodAssembler
