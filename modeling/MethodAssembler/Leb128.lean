import MethodAssembler.Fault

/-! # LEB128

Numbers as bytes of seven bits each, lowest first, every byte but the last with its high bit set; in the signed
form the last byte's bit 6 is the sign. Writers give the shortest form of a 32-bit value. Readers take overlong
forms of up to ten bytes, the tenth of which may only repeat the sign, and then ask for 32 bits. -/

namespace MethodAssembler.Leb128

/-! ### Writing -/

/-- The groups of a number in at most `fuel` bytes. -/
def unsignedGroups : (fuel : Nat) → Nat → List UInt8
  | 0, _ => []
  | fuel + 1, n =>
    if n < 128 then [.ofNat n] else .ofNat (n % 128 + 128) :: unsignedGroups fuel (n / 128)

/-- The groups of a signed number in at most `fuel` bytes. -/
def signedGroups : (fuel : Nat) → Int → List UInt8
  | 0, _ => []
  | fuel + 1, n =>
    if -64 ≤ n ∧ n < 64 then [.ofNat (n % 128).toNat]
    else .ofNat ((n % 128).toNat + 128) :: signedGroups fuel (n / 128)

/-- The unsigned form of a word; five groups hold 35 bits. -/
def encodeUnsigned (value : UInt32) : List UInt8 := unsignedGroups 5 value.toNat

/-- The signed form of a word. -/
def encodeSigned (value : Int32) : List UInt8 := signedGroups 5 value.toInt

/-- The unsigned forms of words, one behind the other. -/
def encodeStream (values : List UInt32) : List UInt8 := values.flatMap encodeUnsigned

/-! ### Predicted sizes -/

/-- The number of binary digits of a number; zero has none. -/
def bitLength (n : Nat) : Nat := if n = 0 then 0 else n.log2 + 1

/-- The length of the unsigned form; zero takes one bit. -/
def unsignedSize (value : UInt32) : Nat := (bitLength (max value.toNat 1) + 6) / 7

/-- The length of the signed form: the significant bits and one for the sign. -/
def signedSize (value : Int32) : Nat :=
  let significant := if value.toInt < 0 then (-value.toInt - 1).toNat else value.toInt.toNat
  (bitLength significant + 1 + 6) / 7

/-! ### Reading -/

/-- The number at the start of `bytes` and the bytes behind it. `index` counts the groups before. -/
def readUnsigned (index : Nat) : List UInt8 → Except Malformed (Nat × List UInt8)
  | [] => .error .lebTruncated
  | b :: rest =>
    if index = 9 ∧ b ≠ 0 ∧ b ≠ 1 then .error .lebUnsignedOverflow
    else if b < 128 then .ok (b.toNat, rest)
    else
      match readUnsigned (index + 1) rest with
      | .ok (high, rest) => .ok (b.toNat % 128 + 128 * high, rest)
      | .error e => .error e

/-- The signed number at the start of `bytes` and the bytes behind it. -/
def readSigned (index : Nat) : List UInt8 → Except Malformed (Int × List UInt8)
  | [] => .error .lebTruncated
  | b :: rest =>
    if index = 9 ∧ b ≠ 0 ∧ b ≠ 0x7f then .error .lebSignedOverflow
    else if b < 128 then .ok (if b < 64 then (b.toNat : Int) else (b.toNat : Int) - 128, rest)
    else
      match readSigned (index + 1) rest with
      | .ok (high, rest) => .ok ((b.toNat % 128 : Nat) + 128 * high, rest)
      | .error e => .error e

/-- A number as an unsigned word, if it is one. -/
def asWord (n : Nat) : Except Malformed UInt32 :=
  if n < UInt32.size then .ok (.ofNat n) else .error .lebRange

/-- A number as a signed word, if it is one. -/
def asSignedWord (n : Int) : Except Malformed Int32 :=
  if Int32.minValue.toInt ≤ n ∧ n ≤ Int32.maxValue.toInt then .ok (.ofInt n) else .error .lebRange

/-- Takes an unsigned word off the front of a stream. -/
def takeUnsigned (bytes : List UInt8) : Except Malformed (UInt32 × List UInt8) :=
  match readUnsigned 0 bytes with
  | .ok (n, rest) => (asWord n).map (·, rest)
  | .error e => .error e

/-- Takes a signed word off the front of a stream. -/
def takeSigned (bytes : List UInt8) : Except Malformed (Int32 × List UInt8) :=
  match readSigned 0 bytes with
  | .ok (n, rest) => (asSignedWord n).map (·, rest)
  | .error e => .error e

/-- Takes `count` unsigned words off the front of a stream. -/
def takeUnsignedMany : (count : Nat) → List UInt8 → Except Malformed (List UInt32 × List UInt8)
  | 0, bytes => .ok ([], bytes)
  | count + 1, bytes =>
    match takeUnsigned bytes with
    | .error e => .error e
    | .ok (value, rest) =>
      match takeUnsignedMany count rest with
      | .error e => .error e
      | .ok (values, rest) => .ok (value :: values, rest)

/-- Reads a number that starts at `pos`. The position moves behind the number once its bytes are read, also when
    the number then needs more than 32 bits. -/
def decodeAt {ν ω : Type} (read : List UInt8 → Except Malformed (ν × List UInt8)) (narrow : ν → Except Malformed ω)
    (data : List UInt8) (pos : Nat) : Except Malformed ω × Nat :=
  if data.length < pos then (.error .lebPastEnd, pos)
  else
    match read (data.drop pos) with
    | .error e => (.error e, pos)
    | .ok (n, rest) => (narrow n, data.length - rest.length)

def decodeUnsignedAt : (data : List UInt8) → (pos : Nat) → Except Malformed UInt32 × Nat :=
  decodeAt (readUnsigned 0) asWord

def decodeSignedAt : (data : List UInt8) → (pos : Nat) → Except Malformed Int32 × Nat :=
  decodeAt (readSigned 0) asSignedWord

end MethodAssembler.Leb128
