import MethodAssembler.Json.Value

/-! # Taking JSON values apart

What a value means where a number, a text, a list or a record is expected. A record is an object, whose unknown fields
do not matter and whose known fields may not repeat, or an array of its fields in their order, of which the last may
be left out. A variant is a record with a field that names it. -/

namespace MethodAssembler.Json

/-! ### Plain values -/

def bool? : Json → Option Bool
  | .bool b => some b
  | _ => none

def text? : Json → Option String
  | .string text => text
  | _ => none

def int? : Json → Option Int
  | .number n => n.toInt?
  | _ => none

/-- A number from zero up to a bound. -/
def natBelow? (bound : Nat) (j : Json) : Option Nat := do
  let n ← j.int?
  if 0 ≤ n ∧ n < bound then some n.toNat else none

def uint8? (j : Json) : Option UInt8 := (j.natBelow? UInt8.size).map .ofNat
def uint16? (j : Json) : Option UInt16 := (j.natBelow? UInt16.size).map .ofNat
def uint32? (j : Json) : Option UInt32 := (j.natBelow? UInt32.size).map .ofNat

/-- A count or an index: 64 bits. -/
def size? (j : Json) : Option Nat := j.natBelow? UInt64.size

def int32? (j : Json) : Option Int32 := do
  let n ← j.int?
  if Int32.minValue.toInt ≤ n ∧ n ≤ Int32.maxValue.toInt then some (.ofInt n) else none

def items? : Json → Option (List Json)
  | .array items => some items
  | _ => none

def list? {α : Type} (item? : Json → Option α) (j : Json) : Option (List α) := do (← j.items?).mapM item?

/-- Two values in an array. -/
def pair? {α β : Type} (first? : Json → Option α) (second? : Json → Option β) (j : Json) : Option (α × β) :=
  match j with
  | .array [a, b] => return (← first? a, ← second? b)
  | _ => none

/-- A value, or the absence of one spelled `null`. -/
def nullable? {α : Type} (value? : Json → Option α) : Json → Option (Option α)
  | .null => some none
  | j => (value? j).map some

/-- A name out of a fixed set: a string, or an object whose only field has that name and no value. -/
def name? : Json → Option String
  | .string text => text
  | .object [(name, .null)] => name
  | _ => none

/-- A name where the value was kept before its variant was known: an empty object counts as no value, too. -/
def keptName? : Json → Option String
  | .object [(name, .object [])] => name
  | j => j.name?

/-! ### Records -/

/-- The fields of an object with their names; every name must be a text. -/
def namedFields? (fields : List (Option String × Json)) : Option (List (String × Json)) :=
  fields.mapM fun (name, v) => name.map (·, v)

/-- Whether a name occurs at most once. -/
def atMostOnce (fields : List (String × Json)) (name : String) : Bool :=
  fields.countP (·.1 == name) ≤ 1

/-- The values of the named fields of a record, each if it is there. -/
def record? (names : List String) : Json → Option (List (Option Json))
  | .object fields => do
    let fields ← namedFields? fields
    if names.all (atMostOnce fields) then some (names.map fun name => fields.lookup name) else none
  | .array items =>
    if items.length ≤ names.length then
      some (items.map some ++ List.replicate (names.length - items.length) none)
    else none
  | _ => none

/-- The value of a field that must be there. -/
def required? {α : Type} (value? : Json → Option α) (field : Option Json) : Option α := field.bind value?

/-- The value of a field that may be left out. -/
def optional? {α : Type} (value? : Json → Option α) (absent : α) : Option Json → Option α
  | none => some absent
  | some j => value? j

/-! ### Variants -/

mutual

/-- Whether a value can be kept while its variant is not known: its texts are sound, its numbers finite, and its
    nesting is at most `depth`. -/
def isKeepable (depth : Nat) : Json → Bool
  | .null | .bool _ => true
  | .number n => n.staysFinite
  | .string text => text.isSome
  | .array items => 0 < depth && areKeepable (depth - 1) items
  | .object fields => 0 < depth && areKeepableFields (depth - 1) fields

def areKeepable (depth : Nat) : List Json → Bool
  | [] => true
  | j :: rest => isKeepable depth j && areKeepable depth rest

def areKeepableFields (depth : Nat) : List (Option String × Json) → Bool
  | [] => true
  | (name, j) :: rest => name.isSome && isKeepable depth j && areKeepableFields depth rest

end

/-- How deep the fields of a variant may be nested: 128 levels less the document, the list and the variant. -/
def variantDepth : Nat := 124

/-- The name of a variant and the record of its other fields. -/
def variant? (tag : String) : Json → Option (String × Json)
  | .object fields => do
    let named ← namedFields? fields
    let (tags, others) := named.partition (·.1 == tag)
    match tags with
    | [(_, .string (some name))] =>
      if areKeepableFields variantDepth (others.map fun (name, v) => (some name, v)) then
        some (name, .object (others.map fun (name, v) => (some name, v)))
      else none
    | _ => none
  | .array (.string (some name) :: rest) =>
    if areKeepable variantDepth rest then some (name, .array rest) else none
  | _ => none

end MethodAssembler.Json
