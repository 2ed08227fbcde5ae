import MethodAssembler.Leb128
import MethodAssembler.Proofs.Stateful

/-! # LEB128 codes

Reading a number off the front of a stream gives back what was written there, and a number takes as many bytes as
predicted. Both go by induction on the groups: a number that does not fit one group is its low seven bits, marked, and
then the groups of the rest. -/

namespace MethodAssembler.Leb128

/-! ### Groups -/

theorem toNat_group {n : Nat} (h : n < 256) : (UInt8.ofNat n).toNat = n := UInt8.toNat_ofNat_of_lt' h

/-- A group of less than 128 ends a number. -/
theorem group_lt {n : Nat} (h : n < 256) : UInt8.ofNat n < 128 ↔ n < 128 := by
  rw [UInt8.lt_iff_toNat_lt, toNat_group h]
  rfl

theorem log2_div_group {n : Nat} (h : 128 ≤ n) : n.log2 = (n / 128).log2 + 7 := by
  have hne : n / 128 ≠ 0 := by omega
  obtain ⟨hle, hlt⟩ := (Nat.log2_eq_iff hne).mp rfl
  refine (Nat.log2_eq_iff (by omega)).mpr ⟨?_, ?_⟩
  · rw [Nat.pow_add]
    omega
  · rw [show (n / 128).log2 + 7 + 1 = (n / 128).log2 + 1 + 7 by omega, Nat.pow_add]
    omega

theorem bitLength_div_group {n : Nat} (h : 128 ≤ n) : bitLength n = bitLength (n / 128) + 7 := by
  rw [bitLength, bitLength, if_neg (by omega), if_neg (by omega), log2_div_group h]

theorem bitLength_le {n k : Nat} (h : n < 2 ^ k) : bitLength n ≤ k := by
  rw [bitLength]
  split
  · exact Nat.zero_le _
  · rename_i hne
    exact (Nat.log2_lt hne).mpr h

theorem bitLength_pos {n : Nat} (h : n ≠ 0) : 1 ≤ bitLength n := by
  rw [bitLength, if_neg h]
  exact Nat.le_add_left _ _

/-! ### Unsigned numbers -/

section Unsigned
variable {fuel n index : Nat}

theorem unsignedGroups_of_lt (h : n < 128) : unsignedGroups (fuel + 1) n = [.ofNat n] := if_pos h

theorem unsignedGroups_of_le (h : 128 ≤ n) :
    unsignedGroups (fuel + 1) n = .ofNat (n % 128 + 128) :: unsignedGroups fuel (n / 128) := if_neg (Nat.not_lt.mpr h)

theorem div_lt_groups (h : n < 128 ^ (fuel + 1 + 1)) : n / 128 < 128 ^ (fuel + 1) := by
  rw [Nat.pow_succ] at h
  exact Nat.div_lt_of_lt_mul (Nat.mul_comm _ _ ▸ h)

theorem readUnsigned_last (h : n < 128) (hindex : index < 9) (rest : List UInt8) :
    readUnsigned index (.ofNat n :: rest) = .ok (n, rest) := by
  have hne : index ≠ 9 := Nat.ne_of_lt hindex
  have hb := (group_lt (show n < 256 by omega)).mpr h
  simp [readUnsigned, hne, hb, toNat_group (show n < 256 by omega)]

theorem readUnsigned_groups (hn : n < 128 ^ (fuel + 1)) (hindex : index + fuel < 9) (rest : List UInt8) :
    readUnsigned index (unsignedGroups (fuel + 1) n ++ rest) = .ok (n, rest) := by
  induction fuel generalizing n index with
  | zero =>
    have hlt : n < 128 := by simpa using hn
    rw [unsignedGroups_of_lt hlt]
    exact readUnsigned_last hlt hindex rest
  | succ fuel ih =>
    by_cases hlt : n < 128
    · rw [unsignedGroups_of_lt hlt]
      exact readUnsigned_last hlt (by omega) rest
    · have hne : index ≠ 9 := by omega
      have hb : ¬UInt8.ofNat (n % 128 + 128) < 128 := by
        rw [group_lt (by omega)]
        omega
      have hrest := ih (div_lt_groups hn) (show index + 1 + fuel < 9 by omega)
      rw [unsignedGroups_of_le (Nat.not_lt.mp hlt), List.cons_append, readUnsigned, if_neg (fun h => hne h.1), if_neg hb,
        hrest]
      simp only [toNat_group (show n % 128 + 128 < 256 by omega), Nat.add_mod_right, Nat.mod_mod, Nat.mod_add_div]

/-- Reading gives back the word that was written, and what stood behind it. -/
theorem takeUnsigned_encode (value : UInt32) (rest : List UInt8) :
    takeUnsigned (encodeUnsigned value ++ rest) = .ok (value, rest) := by
  have hlt := value.toNat_lt
  rw [takeUnsigned, encodeUnsigned, readUnsigned_groups (by omega) (by decide)]
  simp [asWord, show value.toNat < UInt32.size from hlt, Except.map]

theorem size_of_lt (h : n < 128) : (bitLength (max n 1) + 6) / 7 = 1 := by
  have hle := bitLength_le (show max n 1 < 2 ^ 7 by omega)
  have hpos := bitLength_pos (show max n 1 ≠ 0 by omega)
  omega

theorem length_unsignedGroups (hn : n < 128 ^ (fuel + 1)) :
    (unsignedGroups (fuel + 1) n).length = (bitLength (max n 1) + 6) / 7 := by
  induction fuel generalizing n with
  | zero =>
    have hlt : n < 128 := by simpa using hn
    rw [unsignedGroups_of_lt hlt, size_of_lt hlt, List.length_singleton]
  | succ fuel ih =>
    by_cases hlt : n < 128
    · rw [unsignedGroups_of_lt hlt, size_of_lt hlt, List.length_singleton]
    · rw [unsignedGroups_of_le (Nat.not_lt.mp hlt), List.length_cons, ih (div_lt_groups hn), show max n 1 = n by omega,
        show max (n / 128) 1 = n / 128 by omega, bitLength_div_group (show 128 ≤ n by omega)]
      omega

end Unsigned

theorem length_encodeUnsigned (value : UInt32) : (encodeUnsigned value).length = unsignedSize value := by
  have hlt := value.toNat_lt
  exact length_unsignedGroups (show value.toNat < 128 ^ 5 by omega)

/-- Reading gives back the words at the front of a stream, and leaves the rest of it. -/
theorem takeUnsignedMany_stream {count : Nat} {values : List UInt32} (h : count ≤ values.length) :
    takeUnsignedMany count (encodeStream values) = .ok (values.take count, encodeStream (values.drop count)) := by
  induction count generalizing values with
  | zero => rfl
  | succ count ih =>
    cases values with
    | nil => simp at h
    | cons value values =>
      have hrest := ih (Nat.le_of_succ_le_succ h)
      simp only [encodeStream] at hrest ⊢
      simp only [List.flatMap_cons, takeUnsignedMany, takeUnsigned_encode, hrest, List.take_succ_cons,
        List.drop_succ_cons]

/-! ### Signed numbers -/

section Signed
variable {fuel index : Nat} {n : Int}

/-- The numbers that a group holds together with their sign. -/
def Short (n : Int) : Prop := -64 ≤ n ∧ n < 64

theorem signedGroups_of_short (h : Short n) : signedGroups (fuel + 1) n = [.ofNat (n % 128).toNat] := if_pos h

theorem signedGroups_of_long (h : ¬Short n) :
    signedGroups (fuel + 1) n = .ofNat ((n % 128).toNat + 128) :: signedGroups fuel (n / 128) := if_neg h

/-- The numbers that `fuel + 1` groups hold. -/
def Holds (fuel : Nat) (n : Int) : Prop := -64 * 128 ^ fuel ≤ n ∧ n < 64 * 128 ^ fuel

theorem holds_div (h : Holds (fuel + 1) n) : Holds fuel (n / 128) := by
  rw [Holds, Int.pow_succ] at h
  rw [Holds]
  omega

theorem readSigned_last (h : Short n) (hindex : index < 9) (rest : List UInt8) :
    readSigned index (.ofNat (n % 128).toNat :: rest) = .ok (n, rest) := by
  obtain ⟨hlow, hhigh⟩ := h
  have hne : index ≠ 9 := Nat.ne_of_lt hindex
  have hbyte := toNat_group (show (n % 128).toNat < 256 by omega)
  have hb : UInt8.ofNat (n % 128).toNat < 128 := (group_lt (by omega)).mpr (by omega)
  have hsign : UInt8.ofNat (n % 128).toNat < 64 ↔ 0 ≤ n := by
    rw [UInt8.lt_iff_toNat_lt, hbyte, show (64 : UInt8).toNat = 64 from rfl]
    omega
  simp only [readSigned, hne, false_and, if_false, hb, if_true, hsign, hbyte]
  split <;> simp only [Except.ok.injEq, Prod.mk.injEq, and_true] <;> omega

theorem readSigned_groups (hn : Holds fuel n) (hindex : index + fuel < 9) (rest : List UInt8) :
    readSigned index (signedGroups (fuel + 1) n ++ rest) = .ok (n, rest) := by
  induction fuel generalizing n index with
  | zero =>
    have hshort : Short n := by simpa [Holds, Short] using hn
    rw [signedGroups_of_short hshort]
    exact readSigned_last hshort hindex rest
  | succ fuel ih =>
    by_cases hshort : Short n
    · rw [signedGroups_of_short hshort]
      exact readSigned_last hshort (by omega) rest
    · have hne : index ≠ 9 := by omega
      have hbyte := toNat_group (show (n % 128).toNat + 128 < 256 by omega)
      have hb : ¬UInt8.ofNat ((n % 128).toNat + 128) < 128 := by
        rw [group_lt (by omega)]
        omega
      have hrest := ih (holds_div hn) (show index + 1 + fuel < 9 by omega)
      rw [signedGroups_of_long hshort, List.cons_append, readSigned, if_neg (fun h => hne h.1), if_neg hb, hrest]
      simp only [hbyte, Except.ok.injEq, Prod.mk.injEq, and_true]
      omega

/-- What a number takes bits for, its sign apart. -/
def significant (n : Int) : Nat := if n < 0 then (-n - 1).toNat else n.toNat

theorem significant_div (n : Int) : significant (n / 128) = significant n / 128 := by
  simp only [significant]
  split <;> split <;> omega

theorem short_iff : Short n ↔ significant n < 64 := by
  rw [Short, significant]
  split <;> omega

theorem size_of_short (h : Short n) : (bitLength (significant n) + 1 + 6) / 7 = 1 := by
  have hle := bitLength_le (show significant n < 2 ^ 6 from short_iff.mp h)
  omega

/-- A number takes one byte more than its rest, also when only the sign is left. -/
theorem size_of_long (h : ¬Short n) :
    (bitLength (significant n) + 1 + 6) / 7 = (bitLength (significant (n / 128)) + 1 + 6) / 7 + 1 := by
  rw [short_iff] at h
  rw [significant_div]
  by_cases hlt : significant n < 128
  · have hbits : bitLength (significant n) = 7 := by
      have hlog : (significant n).log2 = 6 := (Nat.log2_eq_iff (by omega)).mpr ⟨Nat.not_lt.mp h, hlt⟩
      rw [bitLength, if_neg (by omega), hlog]
    rw [hbits, Nat.div_eq_of_lt hlt]
    rfl
  · rw [bitLength_div_group (Nat.not_lt.mp hlt)]
    omega

theorem length_signedGroups (hn : Holds fuel n) :
    (signedGroups (fuel + 1) n).length = (bitLength (significant n) + 1 + 6) / 7 := by
  induction fuel generalizing n with
  | zero =>
    have hshort : Short n := by simpa [Holds, Short] using hn
    rw [signedGroups_of_short hshort, size_of_short hshort, List.length_singleton]
  | succ fuel ih =>
    by_cases hshort : Short n
    · rw [signedGroups_of_short hshort, size_of_short hshort, List.length_singleton]
    · rw [signedGroups_of_long hshort, List.length_cons, ih (holds_div hn), size_of_long hshort]

end Signed

theorem holds_int32 (value : Int32) : Holds 4 value.toInt := by
  have hle := value.le_toInt
  have hlt := value.toInt_lt
  rw [Holds]
  omega

theorem takeSigned_encode (value : Int32) (rest : List UInt8) :
    takeSigned (encodeSigned value ++ rest) = .ok (value, rest) := by
  have hrange : Int32.minValue.toInt ≤ value.toInt ∧ value.toInt ≤ Int32.maxValue.toInt :=
    ⟨value.minValue_le_toInt, value.toInt_le⟩
  rw [takeSigned, encodeSigned, readSigned_groups (holds_int32 value) (by decide)]
  simp only [asSignedWord, if_pos hrange, Except.map, Int32.ofInt_toInt]

theorem length_encodeSigned (value : Int32) : (encodeSigned value).length = signedSize value :=
  length_signedGroups (holds_int32 value)

end MethodAssembler.Leb128
