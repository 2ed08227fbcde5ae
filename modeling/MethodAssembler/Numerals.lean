/-! # Powers and sums of numbers

Numbers are also monoids and rings, and where those structures are in scope a power or a sum would be taken from them. Here
both are always the ones of the core library, so a statement is the same term in every module. -/

namespace MethodAssembler

@[default_instance 10000]
instance (priority := 10000) powNat {α : Type} [NatPow α] : Pow α Nat := instPowNat

/-- The zero that an empty sum is. -/
instance (priority := 10000) zeroNat : Zero Nat := Zero.ofOfNat0

end MethodAssembler
