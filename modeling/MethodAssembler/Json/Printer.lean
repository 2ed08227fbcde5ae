import MethodAssembler.Json.Value
import MethodAssembler.Text

/-! # Writing JSON

Documents on one line, and documents with two blanks to a level of nesting and one member to a line, in which an empty
container stays on its line. -/

namespace MethodAssembler.Json

/-- A character between quotes: quotes, backslashes and control characters are escaped. -/
def escapeChar (c : Char) : String :=
  match c with
  | '"' => "\\\""
  | '\\' => "\\\\"
  | '\n' => "\\n"
  | '\r' => "\\r"
  | '\t' => "\\t"
  | '\x08' => "\\b"
  | '\x0c' => "\\f"
  | c => if c.toNat < 0x20 then "\\u" ++ Text.hexPadded 4 c.toNat else c.toString

def quote (s : String) : String :=
  s.foldl (fun text c => text ++ escapeChar c) "\"" ++ "\""

def numberText (n : JsonNumber) : String :=
  (if n.negative then "-" else "") ++ toString n.whole ++
    (if n.hasFraction then "." ++ Text.zeroFilled n.fractionDigits (toString n.fraction) else "") ++
    (if n.hasExponent then "e" ++ (if n.exponentNegative then "-" else "") ++ toString n.exponent else "")

/-- The start of a line at a level of nesting. -/
def newLine (level : Nat) : String := "\n".pushn ' ' (2 * level)

mutual

/-- The text of a value on one line. -/
def compact : Json → String
  | .null => "null"
  | .bool b => if b then "true" else "false"
  | .number n => numberText n
  | .string text => quote (text.getD "")
  | .array items => "[" ++ ",".intercalate (compactItems items) ++ "]"
  | .object fields => "\x7b" ++ ",".intercalate (compactFields fields) ++ "\x7d"

def compactItems : List Json → List String
  | [] => []
  | j :: rest => compact j :: compactItems rest

def compactFields : List (Option String × Json) → List String
  | [] => []
  | (name, j) :: rest => (quote (name.getD "") ++ ":" ++ compact j) :: compactFields rest

end

mutual

/-- The text of a value at a level of nesting, one member to a line. -/
def prettyAt (level : Nat) : Json → String
  | .null => "null"
  | .bool b => if b then "true" else "false"
  | .number n => numberText n
  | .string text => quote (text.getD "")
  | .array [] => "[]"
  | .array items =>
    "[" ++ newLine (level + 1) ++ ("," ++ newLine (level + 1)).intercalate (prettyItems (level + 1) items) ++
      newLine level ++ "]"
  | .object [] => "\x7b\x7d"
  | .object fields =>
    "\x7b" ++ newLine (level + 1) ++ ("," ++ newLine (level + 1)).intercalate (prettyFields (level + 1) fields) ++
      newLine level ++ "\x7d"

def prettyItems (level : Nat) : List Json → List String
  | [] => []
  | j :: rest => prettyAt level j :: prettyItems level rest

def prettyFields (level : Nat) : List (Option String × Json) → List String
  | [] => []
  | (name, j) :: rest => (quote (name.getD "") ++ ": " ++ prettyAt level j) :: prettyFields level rest

end

/-- The text of a document, one member to a line, without a final line end. -/
def pretty (j : Json) : String := prettyAt 0 j

end MethodAssembler.Json
