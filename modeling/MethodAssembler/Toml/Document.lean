import MethodAssembler.Toml.Scalar

/-! # TOML documents

A document is a sequence of lines: headers, which open tables, and assignments to keys of the table opened last.
Values and dotted keys have fewer than eighty levels. -/

namespace MethodAssembler.Toml
open Scanner

/-- Keys and values are refused from this many levels on. -/
def levelLimit : Nat := 80

/-! ### Keys -/

def isBareKeyChar (c : Char) : Bool := c.isAlphanum || c == '-' || c == '_'

def simpleKey : Scanner String := lineString <|> String.ofList <$> charsWhile1 isBareKeyChar

/-- The parts of a dotted key; blanks may stand around each. -/
def key : Scanner (List String) :=
  checked (separated1 (do
    blanks
    let part ← simpleKey
    blanks
    return part) (char '.')) (·.length < levelLimit)

/-- The table that an assignment leads to, the key in it, and the value. -/
structure Assignment where
  path : List String
  key : String
  value : Value

def assignment (value : Scanner Value) : Scanner Assignment := do
  let parts ← key
  char '='
  blanks
  let value ← value
  match parts.getLast? with
  | some key => return { path := parts.dropLast, key, value }
  | none => failure

/-! ### Values -/

/-- Blanks, line ends and comments, as they may stand between the items of an array. -/
def filling : Scanner Unit := do
  blanks
  let _ ← many do
    let _ ← optional comment
    let _ ← lineEnd
    blanks

def array (item : Scanner Value) : Scanner Value := do
  char '['
  let items ← separated (do
    filling
    let v ← item
    filling
    return v) (char ',')
  if !items.isEmpty then
    let _ ← optional (char ',')
  filling
  char ']'
  return .array items

/-- The table that assignments build up from nothing. -/
def tableOf (assignments : List Assignment) : Option Value := do
  let (origin, entries) ← assignments.foldlM
    (fun (origin, entries) a => assign a.path a.key a.value origin entries) (TableOrigin.inlined, ([] : Entries))
  return .table origin entries

def inlineTable (item : Scanner Value) : Scanner Value := do
  char '\x7b'
  let assignments ← separated (do
    let a ← assignment item
    blanks
    return a) (char ',')
  blanks
  char '\x7d'
  match tableOf assignments with
  | some v => return v
  | none => failure

/-- A value with at most so many levels of arrays and tables. -/
def value : (levels : Nat) → Scanner Value
  | 0 => scalar
  | levels + 1 => array (value levels) <|> inlineTable (value levels) <|> scalar

/-! ### Lines -/

inductive Line where
  | blank
  | header (path : List String)
  /-- The header of one of several tables. -/
  | element (path : List String)
  | assignment (a : Assignment)

/-- The rest of a line: a comment at most. -/
def lineRest : Scanner Unit := do
  blanks
  let _ ← optional comment
  discard lineEnd <|> ending

def line : Scanner Line :=
  (do
    word "[["
    let path ← key
    word "]]"
    lineRest
    return .element path) <|>
  (do
    char '['
    let path ← key
    char ']'
    lineRest
    return .header path) <|>
  (do
    let a ← assignment (value (levelLimit - 1))
    lineRest
    return .assignment a) <|>
  (do
    discard lineEnd <|> do
      comment
      discard lineEnd <|> ending
    return .blank)

/-- The lines of a document, behind a byte order mark at most. -/
def lines : Scanner (List Line) := do
  let _ ← optional (char '\ufeff')
  blanks
  let lines ← many do
    let l ← line
    blanks
    return l
  ending
  return lines

/-! ### The whole -/

/-- Opens what a header names; the tables on the way come about if they are not there. -/
def openPath (open_ : String → Entries → Option Entries) (path : List String) (root : Entries) : Option Entries := do
  let key ← path.getLast?
  let (_, root) ← alterAt .implied (fun o entries => return (o, ← open_ key entries)) path.dropLast .opened root
  return root

/-- Builds up a document line by line, `current` being the path of the table opened last. -/
def build : List Line → (current : List String) → Entries → Option Entries
  | [], _, root => some root
  | .blank :: rest, current, root => build rest current root
  | .header path :: rest, _, root => do build rest path (← openPath openTable path root)
  | .element path :: rest, _, root => do build rest path (← openPath openElement path root)
  | .assignment a :: rest, current, root => do
    let (_, root) ← alterAt .implied (assign a.path a.key a.value) current .opened root
    build rest current root

/-- The entries of a document. -/
def parse? (text : String) : Option Entries := do
  let (lines, _) ← lines text.toList
  build lines [] []

end MethodAssembler.Toml
