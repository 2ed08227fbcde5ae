/-! # Scanners

Readers of text that take characters off the front, or fail. A failed alternative leaves the text as it was for the
next one. -/

namespace MethodAssembler.Toml

/-- A reader of a text: what it read and the rest, or nothing. -/
abbrev Scanner := StateT (List Char) Option

namespace Scanner

/-- The next character, if it satisfies a condition. -/
def charWhere (p : Char → Bool) : Scanner Char := fun text =>
  match text with
  | c :: rest => if p c then some (c, rest) else none
  | [] => none

def char (c : Char) : Scanner Unit := do
  let _ ← charWhere (· == c)

/-- All characters up to one that does not satisfy a condition. -/
def charsWhile (p : Char → Bool) : Scanner (List Char) := fun text => some (text.span p)

/-- At least one character, up to one that does not satisfy a condition. -/
def charsWhile1 (p : Char → Bool) : Scanner (List Char) := do
  let c ← charWhere p
  return c :: (← charsWhile p)

/-- Exactly these characters. -/
def word (s : String) : Scanner Unit := s.toList.forM char

/-- One character out of a text. -/
def oneOf (s : String) : Scanner Char := charWhere s.toList.contains

/-- The end of the text. -/
def ending : Scanner Unit := fun text => if text.isEmpty then some ((), text) else none

/-- Succeeds if a scanner would, without taking anything. -/
def ahead {α : Type} (p : Scanner α) : Scanner Unit := fun text => (p text).map fun _ => ((), text)

/-- At most one item for each character of `bound`. -/
def manyUpTo {α : Type} (p : Scanner α) : (bound : List Char) → Scanner (List α)
  | [] => return []
  | _ :: bound => do
    match ← optional p with
    | none => return []
    | some a => return a :: (← manyUpTo p bound)

/-- As many items as there are. Each takes at least one character, so the text itself bounds their number. -/
def many {α : Type} (p : Scanner α) : Scanner (List α) := do manyUpTo p (← get)

/-- At least one item, and a separator between any two. -/
def separated1 {α : Type} (p : Scanner α) (separator : Scanner Unit) : Scanner (List α) := do
  let a ← p
  return a :: (← many do
    separator
    p)

/-- Items with a separator between any two, possibly none. -/
def separated {α : Type} (p : Scanner α) (separator : Scanner Unit) : Scanner (List α) :=
  separated1 p separator <|> return []

/-- Succeeds on what a scanner reads if it satisfies a condition. -/
def checked {α : Type} (p : Scanner α) (holds : α → Bool) : Scanner α := do
  let a ← p
  if holds a then return a else failure

/-- The value that a scanner's result stands for, if there is one. -/
def mapSome {α β : Type} (p : Scanner α) (f : α → Option β) : Scanner β := do
  match f (← p) with
  | some b => return b
  | none => failure

end Scanner

end MethodAssembler.Toml
