import MethodAssembler.Proofs.Leb128.Forms

/-! # Readers on 64 bits

A byte codec keeps the number that it reads in 64 bits: it puts each group in at its shift, and spreads the sign of the last
group over the bits above it, if there are any. Nothing is lost on the way, since a tenth group is taken only if it
repeats the one bit that is left for it. So the codec gives the sums of the groups. -/

namespace MethodAssembler.Leb128

/-! ### The codec -/

/-- Puts the group of a byte into 64 bits. -/
def putGroup (shift : Nat) (bits : UInt64) (b : UInt8) : UInt64 := bits ||| (b &&& 0x7f).toUInt64 <<< UInt64.ofNat shift

/-- Reads on with `bits` from the groups before, the next group going to `shift`. -/
def codec {α : Type} (top : UInt8) (overflow : Malformed) (finish : (shift : Nat) → (last : UInt8) → UInt64 → α)
    (shift : Nat) (bits : UInt64) : List UInt8 → Except Malformed (α × List UInt8)
  | [] => .error .lebTruncated
  | b :: rest =>
    if shift = 63 ∧ b ≠ 0 ∧ b ≠ top then .error overflow
    else if b &&& 0x80 = 0 then .ok (finish (shift + 7) b (putGroup shift bits b), rest)
    else codec top overflow finish (shift + 7) (putGroup shift bits b) rest

/-- Sets the bits from `shift` on if bit 6 of the last byte is set. -/
def extendSign (shift : Nat) (last : UInt8) (bits : UInt64) : UInt64 :=
  if shift < 64 ∧ last &&& 0x40 ≠ 0 then bits ||| (-1) <<< UInt64.ofNat shift else bits

def codecUnsigned : List UInt8 → Except Malformed (UInt64 × List UInt8) :=
  codec 1 .lebUnsignedOverflow (fun _ _ bits => bits) 0 0

def codecSigned : List UInt8 → Except Malformed (Int64 × List UInt8) :=
  codec 0x7f .lebSignedOverflow (fun shift last bits => (extendSign shift last bits).toInt64) 0 0

/-! ### Bits of a byte -/

theorem and_continuation (b : UInt8) : b &&& 0x80 = 0 ↔ b < 128 := by
  have h : ∀ n : Fin 256, UInt8.ofNat n &&& 0x80 = 0 ↔ UInt8.ofNat n < 128 := by decide +kernel
  simpa using h ⟨b.toNat, b.toNat_lt⟩

theorem and_sign {b : UInt8} (hb : b < 128) : b &&& 0x40 ≠ 0 ↔ ¬b < 64 := by
  have h : ∀ n : Fin 256, UInt8.ofNat n < 128 → (UInt8.ofNat n &&& 0x40 ≠ 0 ↔ ¬UInt8.ofNat n < 64) := by decide +kernel
  simpa using h ⟨b.toNat, b.toNat_lt⟩ (by simpa using hb)

theorem toNat_group_bits (b : UInt8) : (b &&& 0x7f).toUInt64.toNat = b.toNat % 128 := by
  rw [UInt8.toNat_toUInt64, UInt8.toNat_and]
  exact Nat.and_two_pow_sub_one_eq_mod b.toNat 7

/-! ### Groups in 64 bits -/

/-- Puts the groups of some bytes into 64 bits, the first one at `shift`. -/
def putGroups (shift : Nat) (bits : UInt64) : List UInt8 → UInt64
  | [] => bits
  | b :: form => putGroups (shift + 7) (putGroup shift bits b) form

section Groups
variable {shift : Nat} {bits : UInt64} {form : List UInt8}

/-- Bits that are put above others are added to them. -/
theorem toNat_or_shiftLeft (high : UInt64) (hshift : shift < 64) (hbits : bits.toNat < 2 ^ shift) :
    (bits ||| high <<< UInt64.ofNat shift).toNat = (bits.toNat + high.toNat * 2 ^ shift) % 2 ^ 64 := by
  have hsplit : 2 ^ 64 = 2 ^ shift * 2 ^ (64 - shift) := by rw [← Nat.pow_add, show shift + (64 - shift) = 64 by omega]
  have hmod : (high.toNat * 2 ^ shift) % 2 ^ 64 = 2 ^ shift * (high.toNat % 2 ^ (64 - shift)) := by
    rw [hsplit, Nat.mul_comm, Nat.mul_mod_mul_left]
  have hlt : high.toNat % 2 ^ (64 - shift) + 1 ≤ 2 ^ (64 - shift) := Nat.mod_lt _ (Nat.two_pow_pos _)
  have hsum : bits.toNat + 2 ^ shift * (high.toNat % 2 ^ (64 - shift)) < 2 ^ 64 := by
    have hle := Nat.mul_le_mul_left (2 ^ shift) hlt
    rw [← hsplit, Nat.mul_add] at hle
    omega
  have hnat : (UInt64.ofNat shift).toNat % 64 = shift := by
    rw [UInt64.toNat_ofNat_of_lt' (Nat.lt_trans hshift (by decide)), Nat.mod_eq_of_lt hshift]
  rw [UInt64.toNat_or, UInt64.toNat_shiftLeft, hnat, Nat.shiftLeft_eq, hmod, Nat.or_comm,
    ← Nat.two_pow_add_eq_or_of_lt hbits, ← Nat.add_mod_mod, hmod, Nat.mod_eq_of_lt hsum, Nat.add_comm]

theorem toNat_putGroup (b : UInt8) (hshift : shift < 64) (hbits : bits.toNat < 2 ^ shift) :
    (putGroup shift bits b).toNat = (bits.toNat + b.toNat % 128 * 2 ^ shift) % 2 ^ 64 := by
  rw [putGroup, toNat_or_shiftLeft _ hshift hbits, toNat_group_bits]

theorem putGroup_lt (b : UInt8) (hshift : shift < 64) (hbits : bits.toNat < 2 ^ shift) :
    (putGroup shift bits b).toNat < 2 ^ (shift + 7) := by
  have hgroup := Nat.mul_le_mul_right (2 ^ shift) (show b.toNat % 128 ≤ 127 by omega)
  rw [toNat_putGroup b hshift hbits]
  refine Nat.lt_of_le_of_lt (Nat.mod_le _ _) ?_
  rw [Nat.pow_add]
  omega

theorem toNat_putGroups (hshift : shift + 7 * form.length ≤ 70) (hbits : bits.toNat < 2 ^ shift) :
    (putGroups shift bits form).toNat = (bits.toNat + unsignedValue form * 2 ^ shift) % 2 ^ 64 := by
  induction form generalizing shift bits with
  | nil => simp [putGroups, unsignedValue, Nat.mod_eq_of_lt bits.toNat_lt]
  | cons b form ih =>
    rw [List.length_cons] at hshift
    have hlt : shift < 64 := by omega
    rw [putGroups, ih (by omega) (putGroup_lt b hlt hbits), toNat_putGroup b hlt hbits, Nat.mod_add_mod, unsignedValue_cons,
      Nat.pow_add]
    congr 1
    rw [Nat.add_mul, Nat.add_assoc]
    congr 2
    rw [Nat.mul_comm (2 ^ shift), ← Nat.mul_assoc, Nat.mul_comm 128]

/-- The codec takes the form of a number and puts its groups together. -/
theorem codec_eq_map {α : Type} (top : UInt8) (overflow : Malformed) (finish : Nat → UInt8 → UInt64 → α) (index : Nat)
    (bits : UInt64) (bytes : List UInt8) :
    codec top overflow finish (7 * index) bits bytes = (takeForm top overflow index bytes).map fun r =>
      (finish (7 * (index + r.1.length)) (r.1.getLastD 0) (putGroups (7 * index) bits r.1), r.2) := by
  induction bytes generalizing index bits with
  | nil => rfl
  | cons b bytes ih =>
    have htenth : 7 * index = 63 ↔ index = 9 := by omega
    rw [codec, takeForm]
    simp only [htenth, and_continuation]
    split
    · rfl
    split
    · rfl
    · rw [show 7 * index + 7 = 7 * (index + 1) by omega, ih]
      cases hrest : takeForm top overflow (index + 1) bytes with
      | error e => rfl
      | ok r =>
        -- A form is never empty, so the last byte of the longer form is that of the shorter one.
        obtain ⟨c, form, hform⟩ := List.exists_cons_of_ne_nil (ne_nil_of_takeForm hrest)
        simp only [Except.map, hform, List.length_cons, putGroups]
        rw [show index + 1 + (form.length + 1) = index + (form.length + 1 + 1) by omega]
        rfl

end Groups

/-! ### The numbers of the codec -/

section Numbers
variable {form : List UInt8}

/-- The first nine groups leave one bit. -/
theorem unsignedValue_lt_of_within (hform : Delimited form) (hwithin : Within 1 0 form) : unsignedValue form < 2 ^ 64 := by
  have hlength : form.length ≤ 10 := by simpa using hwithin.length
  by_cases hten : form.length = 10
  · obtain ⟨front, last, rfl, -⟩ := hform.exists_concat
    have hfront := unsignedValue_lt front
    have hnine : front.length = 9 := by simpa using hten
    have hlast : last.toNat % 128 ≤ 1 := by
      have htenth := hwithin.tenth (by omega)
      rw [List.getLastD_concat] at htenth
      rcases htenth with rfl | rfl <;> decide
    rw [hnine] at hfront
    rw [unsignedValue_concat, hnine]
    omega
  · have hpow : 2 ^ (7 * form.length) ≤ 2 ^ 63 := Nat.pow_le_pow_right (by decide) (by omega)
    have hlt := unsignedValue_lt form
    omega

theorem toNat_putGroups_zero (hlength : form.length ≤ 10) : (putGroups 0 0 form).toNat = unsignedValue form % 2 ^ 64 := by
  rw [toNat_putGroups (by omega) (by decide)]
  simp

theorem toInt_toInt64 (bits : UInt64) :
    bits.toInt64.toInt = if bits.toNat < 2 ^ 63 then (bits.toNat : Int) else (bits.toNat : Int) - 2 ^ 64 := by
  have hint : bits.toInt64.toInt = bits.toBitVec.toInt := rfl
  rw [hint, BitVec.toInt_eq_toNat_cond, UInt64.toNat_toBitVec]
  split <;> split <;> omega

/-- Up to nine groups leave room for the sign. -/
theorem toInt_extendSign (hform : Delimited form) (hlength : form.length ≤ 9) :
    (extendSign (7 * form.length) (form.getLastD 0) (putGroups 0 0 form)).toInt64.toInt = signedValue form := by
  obtain ⟨front, last, heq, hlast⟩ := hform.exists_concat
  have hlt := unsignedValue_lt form
  have hpow : 2 ^ (7 * form.length) ≤ 2 ^ 63 := Nat.pow_le_pow_right (by decide) (by omega)
  have hbits : (putGroups 0 0 form).toNat = unsignedValue form := by
    rw [toNat_putGroups_zero (by omega), Nat.mod_eq_of_lt (by omega)]
  have hgetLast : form.getLastD 0 = last := by rw [heq, List.getLastD_concat]
  rw [extendSign, signedValue, hgetLast]
  by_cases hsign : last < 64
  · rw [if_neg fun h => (and_sign hlast).mp h.2 hsign, if_pos hsign, toInt_toInt64, hbits, if_pos (by omega)]
  · have hones : (-1 : UInt64).toNat = 2 ^ 64 - 1 := rfl
    rw [if_pos ⟨by omega, (and_sign hlast).mpr hsign⟩, if_neg hsign, toInt_toInt64,
      toNat_or_shiftLeft (-1) (by omega) (hbits ▸ hlt), hbits, hones]
    generalize 2 ^ (7 * form.length) = unit at hlt hpow ⊢
    split <;> omega

/-- The tenth group holds the sign already. -/
theorem toInt_tenth (hform : Delimited form) (hlength : form.length = 10)
    (htenth : form.getLastD 0 = 0 ∨ form.getLastD 0 = 0x7f) : (putGroups 0 0 form).toInt64.toInt = signedValue form := by
  obtain ⟨front, last, rfl, -⟩ := hform.exists_concat
  have hfront := unsignedValue_lt front
  have hnine : front.length = 9 := by simpa using hlength
  rw [hnine] at hfront
  rw [List.getLastD_concat] at htenth
  rw [signedValue, toInt_toInt64, toNat_putGroups_zero (by omega), unsignedValue_concat, hnine,
    List.getLastD_concat, hlength]
  rcases htenth with rfl | rfl
  · have hgroup : (0 : UInt8).toNat % 128 * 2 ^ (7 * 9) = 0 := rfl
    rw [if_pos (show (0 : UInt8) < 64 by decide), hgroup]
    split <;> omega
  · have hgroup : (0x7f : UInt8).toNat % 128 * 2 ^ (7 * 9) = 127 * 2 ^ 63 := rfl
    rw [if_neg (show ¬(0x7f : UInt8) < 64 by decide), hgroup]
    split <;> omega

theorem readUnsigned_eq_codec (bytes : List UInt8) :
    readUnsigned 0 bytes = (codecUnsigned bytes).map fun r => (r.1.toNat, r.2) := by
  have hcodec := codec_eq_map 1 .lebUnsignedOverflow (fun _ _ bits => bits) 0 0 bytes
  rw [readUnsigned_eq_map, codecUnsigned, show 0 = 7 * 0 from rfl, hcodec]
  cases htake : takeForm 1 .lebUnsignedOverflow 0 bytes with
  | error e => rfl
  | ok r =>
    obtain ⟨form, rest⟩ := r
    obtain ⟨-, hform, hwithin⟩ := of_takeForm (by decide) (Nat.zero_le 9) htake
    have hbits := toNat_putGroups_zero (show form.length ≤ 10 by simpa using hwithin.length)
    rw [Nat.mod_eq_of_lt (unsignedValue_lt_of_within hform hwithin)] at hbits
    simp only [Except.map, Nat.mul_zero, hbits]

theorem readSigned_eq_codec (bytes : List UInt8) :
    readSigned 0 bytes = (codecSigned bytes).map fun r => (r.1.toInt, r.2) := by
  have hcodec := codec_eq_map 0x7f .lebSignedOverflow
    (fun shift last bits => (extendSign shift last bits).toInt64) 0 0 bytes
  rw [readSigned_eq_map, codecSigned, show 0 = 7 * 0 from rfl, hcodec]
  cases htake : takeForm 0x7f .lebSignedOverflow 0 bytes with
  | error e => rfl
  | ok r =>
    obtain ⟨form, rest⟩ := r
    obtain ⟨-, hform, hwithin⟩ := of_takeForm (by decide) (Nat.zero_le 9) htake
    have hlength : form.length ≤ 10 := by simpa using hwithin.length
    have hbits : (extendSign (7 * form.length) (form.getLastD 0) (putGroups 0 0 form)).toInt64.toInt =
        signedValue form := by
      by_cases hten : form.length = 10
      · rw [extendSign, if_neg (by omega)]
        exact toInt_tenth hform hten (hwithin.tenth (by omega))
      · exact toInt_extendSign hform (by omega)
    simp only [Except.map, Nat.mul_zero, Nat.zero_add, hbits]

end Numbers

end MethodAssembler.Leb128
