import MethodAssembler.Json.Value
import MethodAssembler.Text

/-! # Reading JSON

A machine that reads a document one character at a time. The containers that are open stand on a stack, so nesting has
no limit, and a mode says what may come next. Documents are strict: one value, no comments, no commas before a closing
bracket, no raw control characters in strings. -/

namespace MethodAssembler.Json

namespace Reader

/-! ### Strings -/

/-- Where a string stands: at a plain character, behind a backslash, or among the four digits of a code unit. -/
inductive Escape where
  | none
  | backslash
  | unit (left value : Nat)
deriving DecidableEq, Repr

/-- A string that is being read. -/
structure TextDraft where
  text : String := ""
  /-- No surrogate stood alone so far. -/
  sound : Bool := true
  /-- A high surrogate that waits for a low one. -/
  high : Option Nat := none
  escape : Escape := .none
deriving Repr

namespace TextDraft

/-- Adds a character; a surrogate that waits before it stands alone. -/
def add (d : TextDraft) (c : Char) : TextDraft :=
  { text := d.text.push c, sound := d.sound && d.high.isNone }

/-- Adds a code unit. -/
def addUnit (d : TextDraft) (u : Nat) : TextDraft :=
  match d.high with
  | some high =>
    if 0xdc00 ≤ u ∧ u < 0xe000 then
      { d with text := d.text.push (.ofNat (0x10000 + (high - 0xd800) * 0x400 + (u - 0xdc00)))
               high := none, escape := .none }
    else { d with sound := false, high := none, escape := .none }
  | none =>
    if 0xd800 ≤ u ∧ u < 0xdc00 then { d with high := some u, escape := .none }
    else if 0xdc00 ≤ u ∧ u < 0xe000 then { d with sound := false, escape := .none }
    else { d with text := d.text.push (.ofNat u), escape := .none }

/-- The text of a finished string. -/
def finish (d : TextDraft) : Option String := if d.sound && d.high.isNone then some d.text else none

end TextDraft

/-- What a string becomes with one more character; `inr` is a finished string. -/
def textStep (d : TextDraft) (c : Char) : Option (TextDraft ⊕ Option String) :=
  match d.escape with
  | .none =>
    if c = '"' then some (.inr d.finish)
    else if c = '\\' then some (.inl { d with escape := .backslash })
    else if c.toNat < 0x20 then none
    else some (.inl (d.add c))
  | .backslash =>
    match c with
    | '"' | '\\' | '/' => some (.inl (d.add c))
    | 'b' => some (.inl (d.add '\x08'))
    | 'f' => some (.inl (d.add '\x0c'))
    | 'n' => some (.inl (d.add '\n'))
    | 'r' => some (.inl (d.add '\r'))
    | 't' => some (.inl (d.add '\t'))
    | 'u' => some (.inl { d with escape := .unit 4 0 })
    | _ => none
  | .unit left value =>
    match Text.hexDigitValue? c with
    | none => none
    | some digit =>
      let value := value * 16 + digit
      some (.inl (if left = 1 then d.addUnit value else { d with escape := .unit (left - 1) value }))

/-! ### Numbers -/

/-- What part of a number has been read. -/
inductive NumberPart where
  | minus
  | zero
  | whole
  | point
  | fraction
  | exponentMark
  | exponentSign
  | exponent
deriving DecidableEq, Repr

/-- Whether a number may end behind this part. -/
def NumberPart.mayEnd : NumberPart → Bool
  | .zero | .whole | .fraction | .exponent => true
  | _ => false

def isDigit (c : Char) : Bool := '0' ≤ c ∧ c ≤ '9'

/-- What a number becomes with one more character; `none` if the character does not continue it. -/
def numberStep (part : NumberPart) (n : JsonNumber) (c : Char) : Option (NumberPart × JsonNumber) :=
  let digit := c.toNat - 48
  let addFraction : JsonNumber :=
    { n with fraction := n.fraction * 10 + digit, fractionDigits := n.fractionDigits + 1 }
  let addExponent : JsonNumber := { n with exponent := n.exponent * 10 + digit }
  match part with
  | .minus =>
    if c = '0' then some (.zero, n) else if isDigit c then some (.whole, { n with whole := digit }) else none
  | .zero | .whole =>
    if isDigit c && part = .whole then some (.whole, { n with whole := n.whole * 10 + digit })
    else if c = '.' then some (.point, { n with hasFraction := true })
    else if c = 'e' ∨ c = 'E' then some (.exponentMark, { n with hasExponent := true })
    else none
  | .point => if isDigit c then some (.fraction, addFraction) else none
  | .fraction =>
    if isDigit c then some (.fraction, addFraction)
    else if c = 'e' ∨ c = 'E' then some (.exponentMark, { n with hasExponent := true })
    else none
  | .exponentMark =>
    if c = '+' then some (.exponentSign, n)
    else if c = '-' then some (.exponentSign, { n with exponentNegative := true })
    else if isDigit c then some (.exponent, addExponent)
    else none
  | .exponentSign | .exponent => if isDigit c then some (.exponent, addExponent) else none

/-! ### Documents -/

/-- A container that is open, its members in reverse order. -/
inductive Open where
  | items (done : List Json)
  | fields (done : List (Option String × Json))
  /-- An object in which the value of a field is awaited. -/
  | member (done : List (Option String × Json)) (name : Option String)

/-- What may come next. -/
inductive Mode where
  | value
  | valueOrEnd
  | key
  | keyOrEnd
  | colon
  | commaOrEnd
  | text (isKey : Bool) (draft : TextDraft)
  | number (part : NumberPart) (draft : JsonNumber)
  /-- The rest of `null`, `true` or `false`. -/
  | word (left : List Char) (value : Json)
  | done (value : Json)

structure State where
  stack : List Open := []
  mode : Mode := .value

def isBlank (c : Char) : Bool := c = ' ' ∨ c = '\n' ∨ c = '\t' ∨ c = '\r'

/-- Puts a finished value where it belongs. -/
def deliver (stack : List Open) (v : Json) : State :=
  match stack with
  | [] => ⟨[], .done v⟩
  | .items done :: rest => ⟨.items (v :: done) :: rest, .commaOrEnd⟩
  | .member done name :: rest => ⟨.fields ((name, v) :: done) :: rest, .commaOrEnd⟩
  | .fields _ :: rest => ⟨rest, .done v⟩

/-- Puts a finished key where it belongs. -/
def deliverKey (stack : List Open) (name : Option String) : Option State :=
  match stack with
  | .fields done :: rest => some ⟨.member done name :: rest, .colon⟩
  | _ => none

/-- The first character of a value. -/
def startValue (stack : List Open) (c : Char) : Option State :=
  match c with
  | 'n' => some ⟨stack, .word ['u', 'l', 'l'] .null⟩
  | 't' => some ⟨stack, .word ['r', 'u', 'e'] (.bool true)⟩
  | 'f' => some ⟨stack, .word ['a', 'l', 's', 'e'] (.bool false)⟩
  | '"' => some ⟨stack, .text false {}⟩
  | '[' => some ⟨.items [] :: stack, .valueOrEnd⟩
  | '\x7b' => some ⟨.fields [] :: stack, .keyOrEnd⟩
  | '-' => some ⟨stack, .number .minus { negative := true }⟩
  | '0' => some ⟨stack, .number .zero {}⟩
  | c => if isDigit c then some ⟨stack, .number .whole { whole := c.toNat - 48 }⟩ else none

/-- Closes the innermost container. -/
def close (stack : List Open) (c : Char) : Option State :=
  match stack with
  | .items done :: rest => if c = ']' then some (deliver rest (.array done.reverse)) else none
  | .fields done :: rest => if c = '\x7d' then some (deliver rest (.object done.reverse)) else none
  | _ => none

/-- The character behind a member of a container. -/
def commaOrEnd (stack : List Open) (c : Char) : Option State :=
  if c = ',' then
    match stack with
    | .items _ :: _ => some ⟨stack, .value⟩
    | .fields _ :: _ => some ⟨stack, .key⟩
    | _ => none
  else close stack c

/-- The character behind a value, which may be a blank. -/
def behindValue (s : State) (c : Char) : Option State :=
  if isBlank c then some s
  else
    match s.mode with
    | .commaOrEnd => commaOrEnd s.stack c
    | _ => none

/-- What becomes of a document with one more character. -/
def step (s : State) (c : Char) : Option State :=
  match s.mode with
  | .value => if isBlank c then some s else startValue s.stack c
  | .valueOrEnd => if isBlank c then some s else if c = ']' then close s.stack c else startValue s.stack c
  | .key => if isBlank c then some s else if c = '"' then some { s with mode := .text true {} } else none
  | .keyOrEnd =>
    if isBlank c then some s
    else if c = '"' then some { s with mode := .text true {} }
    else close s.stack c
  | .colon => if isBlank c then some s else if c = ':' then some { s with mode := .value } else none
  | .commaOrEnd | .done _ => behindValue s c
  | .text isKey draft =>
    match textStep draft c with
    | none => none
    | some (.inl draft) => some { s with mode := .text isKey draft }
    | some (.inr text) => if isKey then deliverKey s.stack text else some (deliver s.stack (.string text))
  | .number part n =>
    match numberStep part n c with
    | some (part, n) => some { s with mode := .number part n }
    | none =>
      if part.mayEnd && !(part = .zero && isDigit c) then behindValue (deliver s.stack (.number n)) c else none
  | .word left v =>
    match left with
    | [] => none
    | x :: left =>
      if c ≠ x then none
      else if left.isEmpty then some (deliver s.stack v)
      else some { s with mode := .word left v }

/-- The document, if it is complete. -/
def finish (s : State) : Option Json :=
  match s.mode, s.stack with
  | .done v, _ => some v
  | .number part n, [] => if part.mayEnd then some (.number n) else none
  | _, _ => none

/-- Feeds characters to the machine. -/
def run (s : State) : List Char → Option State
  | [] => some s
  | c :: rest =>
    match step s c with
    | none => none
    | some s => run s rest

end Reader

/-- The document that a text spells. -/
def parse? (text : String) : Option Json := (Reader.run {} text.toList).bind Reader.finish

end MethodAssembler.Json
