import MethodAssembler.Numerals

/-! # JSON values

A document as it is written: fields keep their order and may repeat, a number keeps the parts of its literal, and a
string whose escapes name no text is there without one. What of this is acceptable is for the reader of a particular
kind of document to say. -/

namespace MethodAssembler

/-- The parts of a number literal. -/
structure JsonNumber where
  negative : Bool := false
  /-- The digits before the point. -/
  whole : Nat := 0
  hasFraction : Bool := false
  /-- The digits behind the point, and how many. -/
  fraction : Nat := 0
  fractionDigits : Nat := 0
  hasExponent : Bool := false
  exponentNegative : Bool := false
  exponent : Nat := 0
deriving DecidableEq, Repr

inductive Json where
  | null
  | bool (b : Bool)
  | number (n : JsonNumber)
  /-- A string; there is no text if a surrogate stands alone in it. -/
  | string (text : Option String)
  | array (items : List Json)
  | object (fields : List (Option String × Json))
deriving Inhabited

namespace JsonNumber

/-- An integer literal has neither point nor exponent, and zero has no sign. -/
def toInt? (n : JsonNumber) : Option Int :=
  if n.hasFraction || n.hasExponent then none
  else if n.negative then if n.whole = 0 then none else some (-(n.whole : Int))
  else some n.whole

/-- Half a unit above the greatest finite double: from here on a number rounds to infinity. -/
def doubleOverflow : Nat := 2 ^ 1024 - 2 ^ 970

/-- Whether the literal rounds to a finite double. -/
def isFinite (n : JsonNumber) : Bool :=
  let significand := n.whole * 10 ^ n.fractionDigits + n.fraction
  if significand = 0 then true
  else
    let raise := if n.exponentNegative then 0 else n.exponent
    let lower := n.fractionDigits + if n.exponentNegative then n.exponent else 0
    if raise ≤ lower then significand < doubleOverflow * 10 ^ min (lower - raise) significand.log2
    else if 310 ≤ raise - lower then false
    else significand * 10 ^ (raise - lower) < doubleOverflow

/-- Rounds to 53 binary digits, a half to the even neighbour. -/
def toDoublePrecision (n : Nat) : Nat :=
  let unit := 2 ^ (n.log2 - 52)
  let whole := n / unit
  let rest := 2 * (n % unit)
  (if unit < rest || rest = unit && whole % 2 = 1 then whole + 1 else whole) * unit

/-- The last `count` decimal digits of a number, in front of `behind`. -/
def digitsOf : (count n : Nat) → (behind : List Nat) → List Nat
  | 0, _, behind => behind
  | count + 1, n, behind => digitsOf count (n / 10) (n % 10 :: behind)

/-- Extends a number by digits as long as it stays below 64 bits, and counts the digits that are left. -/
def extendWord : (digits : List Nat) → (n : Nat) → Nat × Nat
  | [], n => (n, 0)
  | d :: rest, n => if n * 10 + d < UInt64.size then extendWord rest (n * 10 + d) else (n, rest.length + 1)

/-- Whether the literal stays finite if it is worked out in doubles: the leading digits, as many as 64 bits hold, are
    rounded, and so is the power of ten that multiplies them. -/
def staysFinite (n : JsonNumber) : Bool :=
  let (word, dropped) := extendWord (digitsOf (Nat.toDigits 10 n.whole).length n.whole []) 0
  let (word, unread) := extendWord (digitsOf n.fractionDigits n.fraction []) word
  let raise := dropped + if n.exponentNegative then 0 else n.exponent
  let lower := n.fractionDigits - unread + if n.exponentNegative then n.exponent else 0
  word = 0 || raise ≤ lower ||
    raise - lower ≤ 308 && toDoublePrecision word * toDoublePrecision (10 ^ (raise - lower)) < doubleOverflow

end JsonNumber

namespace Json

def ofNat (n : Nat) : Json := .number { whole := n }

def ofInt (n : Int) : Json := .number { negative := n < 0, whole := n.natAbs }

def ofString (s : String) : Json := .string (some s)

def ofWord (w : UInt32) : Json := .ofNat w.toNat
def ofSigned (w : Int32) : Json := .ofInt w.toInt
def ofWords (ws : List UInt32) : Json := .array (ws.map ofWord)
def ofSigneds (ws : List Int32) : Json := .array (ws.map ofSigned)
def ofBytes (bytes : List UInt8) : Json := .array (bytes.map fun b => .ofNat b.toNat)

/-- An object with these fields. -/
def record (fields : List (String × Json)) : Json := .object (fields.map fun (name, v) => (some name, v))

end Json

end MethodAssembler
