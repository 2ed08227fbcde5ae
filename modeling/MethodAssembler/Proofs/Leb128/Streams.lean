import MethodAssembler.Proofs.Leb128.Forms

/-! # Streams of numbers

Numbers that are written one behind the other, signed and unsigned in any order, are read back in turn from wherever the
first of them stands, and the last reading ends where the next bytes begin. A writer gives the shortest of the forms that
a reader takes, and its length is known beforehand from the leading zeros of the value. -/

namespace MethodAssembler.Leb128

/-- How a number is written. -/
inductive Kind where
  | unsigned
  | signed
deriving DecidableEq, Repr

/-- A word and how it is written. -/
inductive Number where
  | unsigned (value : UInt32)
  | signed (value : Int32)
deriving DecidableEq, Repr

namespace Number

def kind : Number → Kind
  | .unsigned _ => .unsigned
  | .signed _ => .signed

def encode : Number → List UInt8
  | .unsigned value => encodeUnsigned value
  | .signed value => encodeSigned value

/-- The predicted length. -/
def size : Number → Nat
  | .unsigned value => unsignedSize value
  | .signed value => signedSize value

/-- The bits that are to be written, from the leading zeros of a word that is not negative. The sign takes one. -/
def bits : Number → Nat
  | .unsigned value => 32 - (value ||| 1).toBitVec.clz.toNat
  | .signed value => 33 - (value ^^^ (value >>> 31)).toBitVec.clz.toNat

/-- The bytes that a number can be read off. -/
def Form (form : List UInt8) : Number → Prop
  | .unsigned value => Unsigned form value.toNat
  | .signed value => Signed form value.toInt

end Number

/-- Reads a number of a kind that starts at `pos`. -/
def Kind.decodeAt (data : List UInt8) (pos : Nat) : Kind → Except Malformed Number × Nat
  | .unsigned => (decodeUnsignedAt data pos).map (Except.map .unsigned) id
  | .signed => (decodeSignedAt data pos).map (Except.map .signed) id

/-- Reads numbers in turn, each from where the reading before it ended. -/
def decodeAll (data : List UInt8) : List Kind → (pos : Nat) → Except Malformed (List Number) × Nat
  | [], pos => (.ok [], pos)
  | kind :: kinds, pos =>
    match kind.decodeAt data pos with
    | (.error e, pos) => (.error e, pos)
    | (.ok n, pos) => (decodeAll data kinds pos).map (Except.map (n :: ·)) id

/-! ### Reading at a position -/

/-- A form stands in the data from one position to the other. -/
def FormAt (Form : List UInt8 → Prop) (data : List UInt8) (pos stop : Nat) : Prop :=
  ∃ before form after, data = before ++ form ++ after ∧ before.length = pos ∧ stop = pos + form.length ∧ Form form

section Reading
variable {data : List UInt8} {pos stop : Nat}

/-- A number is read at a position exactly if one of its forms stands there, and the reading ends behind that form. -/
theorem decodeAt_eq_ok {ν ω : Type} {read : List UInt8 → Except Malformed (ν × List UInt8)}
    {narrow : ν → Except Malformed ω} {take : List UInt8 → Except Malformed (ω × List UInt8)}
    {Form : List UInt8 → ω → Prop} (htake : ∀ bytes, take bytes = read bytes >>= fun r => (narrow r.1).map (·, r.2))
    (hreads : Reads Form take) {w : ω} :
    decodeAt read narrow data pos = (.ok w, stop) ↔ FormAt (Form · w) data pos stop := by
  have htaken : ∀ bytes rest, take bytes = .ok (w, rest) ↔ ∃ n, read bytes = .ok (n, rest) ∧ narrow n = .ok w := by
    intro bytes rest
    simp only [htake, Checked.bind_eq_ok, Checked.map_eq_ok, Prod.exists, Prod.mk.injEq]
    constructor
    · rintro ⟨n, _, hread, _, hnarrow, rfl, rfl⟩
      exact ⟨n, hread, hnarrow⟩
    · rintro ⟨n, hread, hnarrow⟩
      exact ⟨n, rest, hread, w, hnarrow, rfl, rfl⟩
  constructor
  · intro h
    rw [decodeAt] at h
    split at h
    · cases h
    rename_i hpos
    split at h
    · cases h
    rename_i n rest hread
    obtain ⟨hnarrow, rfl⟩ := Prod.mk.inj h
    obtain ⟨form, hdrop, hform⟩ := (hreads _ _ _).mp ((htaken _ _).mpr ⟨n, hread, hnarrow⟩)
    -- The position is counted from the end, by what the reader left.
    have hlength := congrArg List.length hdrop
    rw [List.length_drop, List.length_append] at hlength
    refine ⟨data.take pos, form, rest, ?_, List.length_take_of_le (Nat.not_lt.mp hpos), by omega, hform⟩
    rw [List.append_assoc, ← hdrop, List.take_append_drop]
  · rintro ⟨before, form, after, rfl, rfl, rfl, hform⟩
    obtain ⟨n, hread, hnarrow⟩ := (htaken _ _).mp ((hreads (form ++ after) w after).mpr ⟨form, rfl, hform⟩)
    rw [decodeAt, if_neg (by simp), List.append_assoc, List.drop_left, hread]
    simp only [hnarrow, ← List.append_assoc, List.length_append, Nat.add_sub_cancel]

theorem decodeUnsignedAt_eq_ok {w : UInt32} :
    decodeUnsignedAt data pos = (.ok w, stop) ↔ FormAt (Unsigned · w.toNat) data pos stop := by
  refine decodeAt_eq_ok (fun bytes => ?_) reads_takeUnsigned
  rw [takeUnsigned]
  cases readUnsigned 0 bytes <;> rfl

theorem decodeSignedAt_eq_ok {w : Int32} :
    decodeSignedAt data pos = (.ok w, stop) ↔ FormAt (Signed · w.toInt) data pos stop := by
  refine decodeAt_eq_ok (fun bytes => ?_) reads_takeSigned
  rw [takeSigned]
  cases readSigned 0 bytes <;> rfl

theorem tagged_eq_ok {ω : Type} {tag : ω → Number} (htag : tag.Injective) {r : Except Malformed ω × Nat} {w : ω} :
    r.map (Except.map tag) id = (.ok (tag w), stop) ↔ r = (.ok w, stop) := by
  obtain ⟨e | v, p⟩ := r
  · simp [Except.map]
  · simp [Except.map, htag.eq_iff]

theorem Number.decodeAt_eq_ok {n : Number} :
    n.kind.decodeAt data pos = (.ok n, stop) ↔ FormAt n.Form data pos stop := by
  cases n with
  | unsigned value => exact (tagged_eq_ok fun _ _ => Number.unsigned.inj).trans decodeUnsignedAt_eq_ok
  | signed value => exact (tagged_eq_ok fun _ _ => Number.signed.inj).trans decodeSignedAt_eq_ok

end Reading

/-! ### Writing -/

theorem Number.form_encode (n : Number) : n.Form n.encode := by
  cases n with
  | unsigned value =>
    obtain ⟨_, heq, hform⟩ := (reads_takeUnsigned _ _ _).mp (takeUnsigned_encode value [])
    cases List.append_cancel_right heq
    exact hform
  | signed value =>
    obtain ⟨_, heq, hform⟩ := (reads_takeSigned _ _ _).mp (takeSigned_encode value [])
    cases List.append_cancel_right heq
    exact hform

theorem Number.length_encode (n : Number) : n.encode.length = n.size := by
  cases n with
  | unsigned value => exact length_encodeUnsigned value
  | signed value => exact length_encodeSigned value

/-- Numbers are read back from the place they were written to, and the position is then behind them. -/
theorem decodeAll_encode (numbers : List Number) (before after : List UInt8) :
    decodeAll (before ++ numbers.flatMap Number.encode ++ after) (numbers.map Number.kind) before.length =
      (.ok numbers, (before ++ numbers.flatMap Number.encode).length) := by
  induction numbers generalizing before with
  | nil => simp [decodeAll]
  | cons n numbers ih =>
    have hread : n.kind.decodeAt (before ++ (n :: numbers).flatMap Number.encode ++ after) before.length =
        (.ok n, (before ++ n.encode).length) :=
      Number.decodeAt_eq_ok.mpr ⟨before, n.encode, numbers.flatMap Number.encode ++ after, by simp, rfl, by simp,
        n.form_encode⟩
    -- To the numbers behind it, a number that was read is one more part of what stands before them.
    have hrest := ih (before ++ n.encode)
    rw [List.append_assoc before, ← List.flatMap_cons] at hrest
    rw [List.map_cons, decodeAll, hread]
    simp only [hrest]
    rfl

/-! ### Shortest forms -/

section Lengths
variable {form : List UInt8}

theorem Unsigned.size_le {value : UInt32} (h : Unsigned form value.toNat) : unsignedSize value ≤ form.length := by
  have hpos := List.length_pos_iff.mpr h.delimited.ne_nil
  have hlt := h.value ▸ unsignedValue_lt form
  have hone : 1 < 2 ^ (7 * form.length) := Nat.one_lt_two_pow (by omega)
  have hbits := bitLength_le (Nat.max_lt.mpr ⟨hlt, hone⟩)
  rw [unsignedSize]
  omega

/-- The sign takes one of the bits of the last group. -/
theorem significant_signedValue_lt (front : List UInt8) {last : UInt8} (hlast : last < 128) :
    significant (signedValue (front ++ [last])) < 2 ^ (7 * front.length + 6) := by
  have hfront := unsignedValue_lt front
  have hlt : last.toNat < 128 := UInt8.lt_iff_toNat_lt.mp hlast
  rw [signedValue, List.getLastD_concat, unsignedValue_concat, Nat.mod_eq_of_lt hlt, List.length_append,
    List.length_singleton, Nat.mul_add, Nat.pow_add, Nat.pow_add, significant]
  generalize 2 ^ (7 * front.length) = unit at hfront ⊢
  by_cases hsign : last < 64
  · have hlow : last.toNat ≤ 63 := Nat.le_of_lt_succ (UInt8.lt_iff_toNat_lt.mp hsign)
    have hgroup := Nat.mul_le_mul_right unit hlow
    rw [if_pos hsign]
    split <;> omega
  · have hhigh : 64 ≤ last.toNat := UInt8.le_iff_toNat_le.mp (UInt8.not_lt.mp hsign)
    have hgroup := Nat.mul_le_mul_right unit hhigh
    have hgroup' := Nat.mul_le_mul_right unit (Nat.le_of_lt_succ hlt)
    rw [if_neg hsign]
    split <;> omega

theorem Signed.size_le {value : Int32} (h : Signed form value.toInt) : signedSize value ≤ form.length := by
  obtain ⟨front, last, rfl, hlast⟩ := h.delimited.exists_concat
  have hbits := bitLength_le (h.value ▸ significant_signedValue_lt front hlast)
  rw [List.length_append, List.length_singleton]
  show (bitLength (significant value.toInt) + 1 + 6) / 7 ≤ _
  omega

theorem Number.size_le_of_form {n : Number} (h : n.Form form) : n.size ≤ form.length := by
  cases n with
  | unsigned value => exact Unsigned.size_le h
  | signed value => exact Signed.size_le h

end Lengths

/-! ### Leading zeros -/

theorem bitLength_toNat {w : Nat} (x : BitVec w) : bitLength x.toNat = w - x.clz.toNat := by
  by_cases hx : x = 0#w
  · subst hx
    have hclz : (0#w).clz.toNat = w := by
      rw [BitVec.clz_eq_iff_eq_zero.mpr rfl]
      exact Nat.mod_eq_of_lt Nat.lt_two_pow_self
    rw [hclz, Nat.sub_self]
    exact if_pos rfl
  · have hne : x.toNat ≠ 0 := fun h => hx (BitVec.eq_of_toNat_eq h)
    have hpos : 0 < w := Nat.pos_of_ne_zero fun h => by
      subst h
      exact hx (Subsingleton.elim _ _)
    have hclz : x.clz.toNat < w := by
      have h := BitVec.lt_def.mp (BitVec.clz_lt_iff_ne_zero.mpr hx)
      exact Nat.lt_of_lt_of_le h (Nat.mod_le _ _)
    -- The leading zeros leave the highest bit in the place that the logarithm names.
    have hlog : x.toNat.log2 = w - 1 - x.clz.toNat := by
      refine (Nat.log2_eq_iff hne).mpr ⟨BitVec.two_pow_sub_clz_le_toNat_of_ne_zero hpos hx, ?_⟩
      rw [show w - 1 - x.clz.toNat + 1 = w - x.clz.toNat by omega]
      exact BitVec.toNat_lt_two_pow_sub_clz
    rw [bitLength, if_neg hne, hlog]
    omega

theorem bitLength_or_one (n : Nat) : bitLength (n ||| 1) = bitLength (max n 1) := by
  by_cases hn : n = 0
  · subst hn
    rfl
  · obtain ⟨hle, hlt⟩ := (Nat.log2_eq_iff hn).mp rfl
    have hone : 1 < 2 ^ (n.log2 + 1) := Nat.one_lt_two_pow (Nat.succ_ne_zero _)
    have hor : n ||| 1 ≠ 0 := fun h => hn (Nat.eq_zero_of_le_zero (h ▸ Nat.left_le_or))
    have hlog : (n ||| 1).log2 = n.log2 :=
      (Nat.log2_eq_iff hor).mpr ⟨Nat.le_trans hle Nat.left_le_or, Nat.or_lt_two_pow hlt hone⟩
    rw [show max n 1 = n by omega, bitLength, bitLength, if_neg hor, if_neg hn, hlog]

/-- Shifting by 31 leaves nothing but the sign, so this turns the bits of a negative word over. -/
theorem toNat_turned (value : Int32) : (value ^^^ (value >>> 31)).toBitVec.toNat = significant value.toInt := by
  have hshift : (value >>> 31).toBitVec = value.toBitVec.sshiftRight 31 := rfl
  rw [Int32.toBitVec_xor, hshift, ← Int32.toInt_toBitVec]
  generalize value.toBitVec = x
  have hlt := x.isLt
  cases hmsb : x.msb with
  | false =>
    have hlow : 2 * x.toNat < 2 ^ 32 := BitVec.msb_eq_false_iff_two_mul_lt.mp hmsb
    have hzero : x.sshiftRight 31 = 0#32 := by
      apply BitVec.eq_of_toNat_eq
      rw [BitVec.toNat_sshiftRight_of_msb_false hmsb, Nat.shiftRight_eq_div_pow]
      exact Nat.div_eq_of_lt (by omega)
    rw [hzero, BitVec.xor_zero, significant, BitVec.toInt_eq_toNat_cond, if_pos hlow]
    split <;> omega
  | true =>
    have hhigh : 2 ^ 32 ≤ 2 * x.toNat := BitVec.msb_eq_true_iff_two_mul_ge.mp hmsb
    have hones : x.sshiftRight 31 = BitVec.allOnes 32 := by
      apply BitVec.eq_of_toNat_eq
      rw [BitVec.toNat_sshiftRight_of_msb_true hmsb, Nat.shiftRight_eq_div_pow, Nat.div_eq_of_lt (by omega)]
      rfl
    rw [hones, BitVec.xor_allOnes, BitVec.toNat_not, significant, BitVec.toInt_eq_toNat_cond,
      if_neg (Nat.not_lt.mpr hhigh)]
    split <;> omega

theorem Number.size_eq_bits (n : Number) : n.size = (n.bits + 6) / 7 := by
  cases n with
  | unsigned value =>
    have hword : (value ||| 1).toBitVec.toNat = value.toNat ||| 1 := UInt32.toNat_or value 1
    rw [size, bits, ← bitLength_toNat, hword, bitLength_or_one, unsignedSize]
  | signed value =>
    have hbits := bitLength_toNat (value ^^^ (value >>> 31)).toBitVec
    have hclz : (value ^^^ (value >>> 31)).toBitVec.clz.toNat ≤ 32 := BitVec.le_def.mp BitVec.clz_le
    rw [toNat_turned] at hbits
    show (bitLength (significant value.toInt) + 1 + 6) / 7 = _
    rw [hbits, bits]
    omega

/-- Numbers that were written one behind the other, between any other bytes, are read back in turn, and the position is
    then where the bytes behind them begin. Each number takes as many bytes as predicted, and wherever it is read, it is
    read off no fewer bytes than that. -/
theorem numbers_roundTrip (numbers : List Number) (before after : List UInt8) :
    decodeAll (before ++ numbers.flatMap Number.encode ++ after) (numbers.map Number.kind) before.length =
      (.ok numbers, (before ++ numbers.flatMap Number.encode).length) ∧
    (∀ n : Number, n.encode.length = n.size ∧ n.size = (n.bits + 6) / 7) ∧
    ∀ (n : Number) (data : List UInt8) (pos stop : Nat), n.kind.decodeAt data pos = (.ok n, stop) →
      pos + n.encode.length ≤ stop ∧ stop ≤ data.length := by
  refine ⟨decodeAll_encode numbers before after, fun n => ⟨n.length_encode, n.size_eq_bits⟩, fun n data pos stop h => ?_⟩
  obtain ⟨front, form, rest, rfl, rfl, rfl, hform⟩ := Number.decodeAt_eq_ok.mp h
  have hle := Number.size_le_of_form hform
  rw [n.length_encode, List.length_append, List.length_append]
  omega

example : [63, 64, -64, -65, 8191, -8192, Int32.minValue].map (fun value => (Number.signed value).encode.length) =
    [1, 2, 1, 2, 2, 2, 5] := rfl

end MethodAssembler.Leb128
