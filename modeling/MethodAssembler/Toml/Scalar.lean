import MethodAssembler.Json.Value
import MethodAssembler.Text
import MethodAssembler.Toml.Scanner
import MethodAssembler.Toml.Value

/-! # Scalars

Strings, numbers, booleans, dates and times. -/

namespace MethodAssembler.Toml
open Scanner

/-! ### Blanks, line ends and comments -/

def isBlank (c : Char) : Bool := c == ' ' || c == '\t'

def blanks : Scanner Unit := discard (charsWhile isBlank)

/-- A line end, which is read as a line feed. -/
def lineEnd : Scanner Char := do
  let _ ← optional (char '\r')
  char '\n'
  return '\n'

/-- Whether a character is none of the control characters; a tab is not one of them here. -/
def isPrintable (c : Char) : Bool := c == '\t' || (' ' ≤ c && c != '\x7f')

def comment : Scanner Unit := do
  char '#'
  let _ ← charsWhile isPrintable

/-! ### Strings -/

/-- The character with a hexadecimal number of so many digits. -/
def escapedNumber (digits : Nat) : Scanner Char :=
  mapSome ((List.range digits).mapM fun _ => charWhere fun c => (Text.hexDigitValue? c).isSome) fun cs => do
    let n ← Text.ofHex? (String.ofList cs)
    if h : n.isValidChar then some (Char.ofNatAux n h) else none

def escape : Scanner Char := do
  char '\\'
  match ← charWhere fun _ => true with
  | 'b' => return '\x08'
  | 't' => return '\t'
  | 'n' => return '\n'
  | 'f' => return '\x0c'
  | 'r' => return '\r'
  | '"' => return '"'
  | '\\' => return '\\'
  | 'u' => escapedNumber 4
  | 'U' => escapedNumber 8
  | _ => failure

def basicChar : Scanner Char :=
  charWhere (fun c => isPrintable c && c != '"' && c != '\\') <|> escape

def literalChar : Scanner Char := charWhere fun c => isPrintable c && c != '\''

/-- A string between single marks. -/
def lineString : Scanner String :=
  (do
    char '"'
    let cs ← many basicChar
    char '"'
    return String.ofList cs) <|> do
  char '\''
  let cs ← many literalChar
  char '\''
  return String.ofList cs

/-- A line end behind a backslash, and all blanks and line ends that follow it. -/
def continuation : Scanner (List Char) := do
  char '\\'
  blanks
  let _ ← lineEnd
  let _ ← many (charWhere isBlank <|> lineEnd)
  return []

/-- One or two marks that do not end a string. -/
def innerMarks (mark : Char) : Scanner (List Char) := do
  let marks ← charsWhile (· == mark)
  if marks.length ≤ 2 ∧ marks ≠ [] then return marks else failure

/-- The end of a string of several lines: three marks, behind up to two that belong to the string. -/
def closingMarks (mark : Char) : Scanner (List Char) := do
  let marks ← charsWhile (· == mark)
  if 3 ≤ marks.length ∧ marks.length ≤ 5 then return marks.drop 3 else failure

/-- A string of several lines: its first line end does not count. -/
def blockString (mark : Char) (content : Scanner (List Char)) : Scanner String := do
  char mark
  char mark
  char mark
  let _ ← optional lineEnd
  let parts ← many (content <|> innerMarks mark)
  let last ← closingMarks mark
  return String.ofList (parts.flatten ++ last)

def string : Scanner String :=
  blockString '"' (continuation <|> ([·]) <$> basicChar <|> ([·]) <$> lineEnd) <|>
  blockString '\'' (([·]) <$> literalChar <|> ([·]) <$> lineEnd) <|>
  lineString

/-! ### Numbers -/

/-- Digits with single underscores between them, which are left out. -/
def digitsWhere (isDigit : Char → Bool) : Scanner (List Char) := do
  let first ← charWhere isDigit
  return first :: (← many do
    let _ ← optional (char '_')
    charWhere isDigit)

def decimalDigits : Scanner (List Char) := digitsWhere (·.isDigit)

/-- The number that digits spell. -/
def ofDigits (base : Nat) (digits : List Char) : Nat :=
  digits.foldl (fun n c => n * base + (Text.hexDigitValue? c).getD 0) 0

/-- Whether a minus stands there; a plus may stand there too. -/
def sign : Scanner Bool := do return (← optional (oneOf "+-")) == some '-'

/-- The digits of a whole number: no zero stands in front of other digits. -/
def wholeDigits : Scanner (List Char) :=
  (do
    char '0'
    return ['0']) <|> decimalDigits

def fitsInteger (n : Int) : Bool := -2 ^ 63 ≤ n && n < 2 ^ 63

def decimalInteger : Scanner Int := checked (do
  let negative ← sign
  let n := ofDigits 10 (← wholeDigits)
  return if negative then -(n : Int) else n) fitsInteger

/-- An integer in another base, behind the mark of that base. -/
def markedInteger (mark : String) (base : Nat) : Scanner Int := checked (do
  word mark
  let digits ← digitsWhere fun c => (Text.hexDigitValue? c).any (· < base)
  return (ofDigits base digits : Int)) fitsInteger

def integer : Scanner Int :=
  markedInteger "0x" 16 <|> markedInteger "0o" 8 <|> markedInteger "0b" 2 <|> decimalInteger

/-- A number with a fraction, an exponent or both. One that is too great for a double is refused; one that is too small
    is not. -/
def decimalFloat : Scanner JsonNumber := checked (do
  let negative ← sign
  let whole ← wholeDigits
  let fraction ← optional do
    char '.'
    decimalDigits
  let exponent ← optional do
    let _ ← oneOf "eE"
    let negative ← sign
    return (negative, ← decimalDigits)
  if fraction.isNone && exponent.isNone then failure
  return {
    negative
    whole := ofDigits 10 whole
    hasFraction := fraction.isSome
    fraction := ofDigits 10 (fraction.getD [])
    fractionDigits := (fraction.getD []).length
    hasExponent := exponent.isSome
    exponentNegative := (exponent.map (·.1)).getD false
    exponent := ofDigits 10 ((exponent.map (·.2)).getD []) }) fun n => n.negative || n.isFinite

/-- Infinity, or no number at all. -/
def specialFloat : Scanner Unit := do
  let _ ← sign
  word "inf" <|> word "nan"

/-! ### Dates and times -/

/-- So many digits, spelling a number within bounds. -/
def numberWithin (digits least greatest : Nat) : Scanner Nat :=
  checked (do return ofDigits 10 (← (List.range digits).mapM fun _ => charWhere (·.isDigit)))
    fun n => least ≤ n && n ≤ greatest

def daysInMonth (year month : Nat) : Nat :=
  if month = 2 then if year % 4 = 0 ∧ (year % 100 ≠ 0 ∨ year % 400 = 0) then 29 else 28
  else if month ∈ [4, 6, 9, 11] then 30
  else 31

def date : Scanner Unit := do
  let year ← numberWithin 4 0 9999
  char '-'
  let month ← numberWithin 2 1 12
  char '-'
  let _ ← numberWithin 2 1 (daysInMonth year month)

/-- A time of day; a leap second may be in it. -/
def time : Scanner Unit := do
  let _ ← numberWithin 2 0 23
  char ':'
  let _ ← numberWithin 2 0 59
  char ':'
  let _ ← numberWithin 2 0 60
  let _ ← optional do
    char '.'
    charsWhile1 (·.isDigit)

def zone : Scanner Unit :=
  discard (oneOf "Zz") <|> do
  let _ ← oneOf "+-"
  let _ ← numberWithin 2 0 23
  char ':'
  let _ ← numberWithin 2 0 59

/-- A date, a date with a time, or a time. -/
def dateTime : Scanner Unit :=
  (do
    date
    let _ ← optional do
      let _ ← oneOf "Tt "
      time
      let _ ← optional zone) <|> time

/-! ### All scalars -/

/-- What a scanner takes off the front. -/
def taken (p : Scanner Unit) : Scanner String := fun text => do
  let (_, rest) ← p text
  return (String.ofList (text.take (text.length - rest.length)), rest)

def scalar : Scanner Value :=
  Value.string <$> string <|>
  Value.dateTime <$> taken dateTime <|>
  Value.float <$> taken (discard decimalFloat <|> specialFloat) <|>
  Value.integer <$> integer <|>
  (do
    word "true"
    return .boolean true) <|> do
  word "false"
  return .boolean false

end MethodAssembler.Toml
