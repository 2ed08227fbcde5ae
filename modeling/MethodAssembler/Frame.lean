import MethodAssembler.Fault

/-! # Stack frames

A frame holds the spilled registers, a filler word, the virtual registers, outgoing arguments, temporaries and the
method pointer, and is rounded up to sixteen bytes. -/

namespace MethodAssembler

/-- The counts and spill masks that determine a frame. -/
structure Frame where
  registers : UInt32 := 0
  outs : UInt32 := 0
  temps : UInt32 := 0
  coreSpillMask : UInt32 := 0
  fpSpillMask : UInt32 := 0
deriving DecidableEq, Repr

/-- The number of set bits of a word. -/
def popCount (w : UInt32) : Nat := (List.range 32).countP fun i => w.toNat.testBit i

/-- A number as a word, if it fits 32 bits. -/
def word? (n : Nat) : Option UInt32 := if n < UInt32.size then some (.ofNat n) else none

/-- The sum of words, as long as it fits 32 bits. -/
def sumWords? (start : UInt32) (words : List UInt32) : Option UInt32 :=
  words.foldlM (fun sum w => word? (sum.toNat + w.toNat)) start

namespace Frame

def coreSpills (f : Frame) : Nat := popCount f.coreSpillMask

def fpSpills (f : Frame) : Nat := popCount f.fpSpillMask

/-- The greatest size that can be rounded up within 32 bits. -/
def maxBytes : Nat := 2 ^ 32 - 16

/-- The words of the spilled registers and the filler. -/
def spillWords (f : Frame) : Checked UInt32 := do
  addWords (← addWords (.ofNat f.coreSpills) (.ofNat f.fpSpills)) 1

/-- The bytes of a frame before it is rounded up, unless they are too many for that. The last word is the method
    pointer. -/
def bytes? (f : Frame) (spillWords : UInt32) : Option UInt32 := do
  let words ← sumWords? spillWords [f.registers, f.outs, f.temps, 1]
  (word? (words.toNat * 4)).filter (·.toNat ≤ maxBytes)

/-- The size of a frame in bytes. -/
def size (f : Frame) : Checked UInt32 := do
  match f.bytes? (← f.spillWords) with
  | some bytes => alignUp bytes 16
  | none => throw (.refused
      (.limitExceeded .frameSize (f.registers.toNat + f.outs.toNat + f.temps.toNat) (maxBytes / 4)))

end Frame

end MethodAssembler
