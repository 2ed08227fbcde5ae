import Mathlib.Order.Bounds.Defs
import MethodAssembler.Bytes
import MethodAssembler.Proofs.Stateful

/-! # Words and bytes as numbers

Sums and alignments of words are those of natural numbers as long as they fit, and little-endian bytes spell the number
that they were made from, modulo their number of digits. -/

namespace MethodAssembler

/-! ### Sums and alignment -/

theorem addWords_eq_ok {a b c : UInt32} : addWords a b = .ok c ↔ c.toNat = a.toNat + b.toNat := by
  have hc := c.toNat_lt
  rw [addWords, show UInt32.size = 2 ^ 32 from rfl]
  split
  · rename_i h
    have hadd : (a + b).toNat = a.toNat + b.toNat := by
      rw [UInt32.toNat_add, Nat.mod_eq_of_lt h]
    rw [Except.ok.injEq]
    exact ⟨fun h => h ▸ hadd, fun h => UInt32.toNat_inj.mp (hadd.trans h.symm)⟩
  · rename_i h
    simp only [reduceCtorEq, false_iff]
    omega

theorem addWords_of_lt {a b : UInt32} (h : a.toNat + b.toNat < 2 ^ 32) :
    ∃ c, addWords a b = .ok c ∧ c.toNat = a.toNat + b.toNat := by
  have hsum : (UInt32.ofNat (a.toNat + b.toNat)).toNat = a.toNat + b.toNat := UInt32.toNat_ofNat_of_lt' h
  exact ⟨_, addWords_eq_ok.mpr hsum, hsum⟩

theorem addWords_trap {a b : UInt32} (h : 2 ^ 32 ≤ a.toNat + b.toNat) : addWords a b = .error .trap :=
  if_neg (Nat.not_lt.mpr h)

theorem toNat_max (a b : UInt32) : (max a b).toNat = max a.toNat b.toNat := by
  rw [show max a b = if a ≤ b then b else a from rfl, Nat.max_def]
  simp only [UInt32.le_iff_toNat_le]
  split <;> rfl

/-- The least multiple of `alignment` that is not below `n`. -/
def roundUp (n alignment : Nat) : Nat := (n + (alignment - 1)) / alignment * alignment

theorem isPowerOfTwo_pos {a : UInt32} (h : isPowerOfTwo a = true) : 0 < a.toNat := by
  have hlog : 2 ^ a.toNat.log2 = a.toNat := beq_iff_eq.mp h
  rw [← hlog]
  exact Nat.two_pow_pos _

theorem exists_pow_of_isPowerOfTwo {a : UInt32} (h : isPowerOfTwo a = true) : ∃ k < 32, a.toNat = 2 ^ k := by
  have hlog : 2 ^ a.toNat.log2 = a.toNat := beq_iff_eq.mp h
  refine ⟨_, ?_, hlog.symm⟩
  exact (Nat.pow_lt_pow_iff_right (by decide)).mp (hlog ▸ a.toNat_lt)

theorem toNat_sub_one {a : UInt32} (h : 0 < a.toNat) : (a - 1).toNat = a.toNat - 1 := by
  rw [UInt32.toNat_sub_of_le _ _ (by rw [UInt32.le_iff_toNat_le]; exact h)]
  rfl

/-- Clearing the bits below a power of two rounds down to one of its multiples. -/
theorem toNat_and_not_sub_one {a : UInt32} (ha : isPowerOfTwo a = true) (n : UInt32) :
    (n &&& ~~~(a - 1)).toNat = n.toNat / a.toNat * a.toNat := by
  obtain ⟨k, -, hpow⟩ := exists_pow_of_isPowerOfTwo ha
  have hpred : (a - 1).toNat = 2 ^ k - 1 := hpow ▸ toNat_sub_one (isPowerOfTwo_pos ha)
  have hmask : 2 ^ k - 1 < 2 ^ 32 := hpred ▸ (a - 1).toNat_lt
  have hnot : (~~~(a - 1)).toNat = 2 ^ 32 - (2 ^ k - 1 + 1) := by
    rw [UInt32.toNat_not, hpred, show UInt32.size = 2 ^ 32 from rfl]
    omega
  apply Nat.eq_of_testBit_eq
  intro i
  rw [UInt32.toNat_and, hnot, hpow, Nat.testBit_and, Nat.testBit_two_pow_sub_succ hmask, Nat.testBit_two_pow_sub_one,
    Nat.testBit_mul_two_pow, Nat.testBit_div_two_pow]
  by_cases hki : k ≤ i
  · -- The bit is kept by the mask, unless it lies above the word, where there is none.
    have hword : n.toNat.testBit i = true → i < 32 := fun hbit =>
      (Nat.pow_lt_pow_iff_right (by decide)).mp (Nat.lt_of_le_of_lt (Nat.ge_two_pow_of_testBit hbit) n.toNat_lt)
    rw [Nat.sub_add_cancel hki]
    cases hbit : n.toNat.testBit i with
    | false => simp
    | true => simp [hki, hword hbit]
  · simp [hki, Nat.lt_of_not_le hki]

theorem alignUp_eq_ok {o a r : UInt32} : alignUp o a = .ok r ↔
    isPowerOfTwo a = true ∧ o.toNat + (a.toNat - 1) < 2 ^ 32 ∧ r.toNat = roundUp o.toNat a.toNat := by
  cases ha : isPowerOfTwo a with
  | false => simp [alignUp, require, ha]
  | true =>
    have hsub : (a - 1).toNat = a.toNat - 1 := toNat_sub_one (isPowerOfTwo_pos ha)
    simp only [alignUp, ha, require_true, Checked.ok_bind, true_and]
    by_cases hlt : o.toNat + (a.toNat - 1) < 2 ^ 32
    · obtain ⟨c, hc, hcn⟩ := addWords_of_lt (hsub ▸ hlt : o.toNat + (a - 1).toNat < 2 ^ 32)
      rw [hsub] at hcn
      simp only [hc, Checked.ok_bind, Checked.pure_eq, Except.ok.injEq, hlt, true_and]
      rw [← UInt32.toNat_inj, toNat_and_not_sub_one ha, hcn, roundUp]
      exact eq_comm
    · rw [addWords_trap (hsub ▸ Nat.not_lt.mp hlt)]
      refine iff_of_false (fun hok => ?_) fun hr => hlt hr.1
      cases hok

theorem alignUp_of_lt {o a : UInt32} (ha : isPowerOfTwo a = true) (h : o.toNat + (a.toNat - 1) < 2 ^ 32) :
    ∃ r, alignUp o a = .ok r ∧ r.toNat = roundUp o.toNat a.toNat := by
  have hlt : roundUp o.toNat a.toNat < 2 ^ 32 := Nat.lt_of_le_of_lt (Nat.div_mul_le_self _ _) h
  have hval : (UInt32.ofNat (roundUp o.toNat a.toNat)).toNat = roundUp o.toNat a.toNat :=
    UInt32.toNat_ofNat_of_lt' hlt
  exact ⟨_, alignUp_eq_ok.mpr ⟨ha, h, hval⟩, hval⟩

theorem le_roundUp {n a : Nat} (ha : 0 < a) : n ≤ roundUp n a := by
  have hdiv := Nat.div_add_mod (n + (a - 1)) a
  have hmod := Nat.mod_lt (n + (a - 1)) ha
  rw [roundUp, Nat.mul_comm]
  omega

theorem roundUp_of_dvd {n a : Nat} (ha : 0 < a) (h : a ∣ n) : roundUp n a = n := by
  obtain ⟨k, rfl⟩ := h
  rw [roundUp, Nat.mul_comm a k, Nat.add_comm, Nat.add_mul_div_right _ _ ha, Nat.div_eq_of_lt (by omega), Nat.zero_add]

theorem dvd_roundUp (n a : Nat) : a ∣ roundUp n a := Nat.dvd_mul_left a _

theorem roundUp_lt {n a : Nat} (ha : 0 < a) : roundUp n a < n + a := by
  have hle : roundUp n a ≤ n + (a - 1) := Nat.div_mul_le_self _ _
  omega

theorem roundUp_le {n m a : Nat} (ha : 0 < a) (h : n ≤ m) (hd : a ∣ m) : roundUp n a ≤ m := by
  refine Nat.le_of_not_lt fun hlt => ?_
  have hgap : a ≤ roundUp n a - m := Nat.le_of_dvd (Nat.sub_pos_of_lt hlt) (Nat.dvd_sub (dvd_roundUp n a) hd)
  have hnear := roundUp_lt (n := n) ha
  omega

theorem isLeast_roundUp {n a : Nat} (ha : 0 < a) : IsLeast { m | a ∣ m ∧ n ≤ m } (roundUp n a) :=
  ⟨⟨dvd_roundUp n a, le_roundUp ha⟩, fun _ hm => roundUp_le ha hm.2 hm.1⟩

/-- Where the aligned offset can be counted, so can the sum on the way to it: the next multiple is 2 ^ 32 at most. -/
theorem alignUp_eq_ok_iff {o a r : UInt32} (ha : isPowerOfTwo a = true) :
    alignUp o a = .ok r ↔ r.toNat = roundUp o.toNat a.toNat := by
  rw [alignUp_eq_ok]
  refine ⟨fun h => h.2.2, fun h => ⟨ha, ?_, h⟩⟩
  obtain ⟨k, hk, hpow⟩ := exists_pow_of_isPowerOfTwo ha
  have hlt := r.toNat_lt
  have hdvd : a.toNat ∣ r.toNat := h ▸ dvd_roundUp _ _
  have hword : a.toNat ∣ 2 ^ 32 := hpow ▸ Nat.pow_dvd_pow 2 (Nat.le_of_lt hk)
  have hgap : a.toNat ≤ 2 ^ 32 - r.toNat := Nat.le_of_dvd (Nat.sub_pos_of_lt hlt) (Nat.dvd_sub hword hdvd)
  have hle : o.toNat ≤ r.toNat := h ▸ le_roundUp (isPowerOfTwo_pos ha)
  omega

/-! ### Little-endian bytes -/

@[simp]
theorem littleEndian_length (count n : Nat) : (littleEndian count n).length = count := by
  induction count generalizing n with
  | zero => rfl
  | succ count ih => simp [littleEndian, ih]

theorem ofLittleEndian_littleEndian (count n : Nat) : ofLittleEndian (littleEndian count n) = n % 256 ^ count := by
  induction count generalizing n with
  | zero => simp [littleEndian, ofLittleEndian, Nat.mod_one]
  | succ count ih =>
    have hbyte : (UInt8.ofNat (n % 256)).toNat = n % 256 := UInt8.toNat_ofNat_of_lt' (Nat.mod_lt _ (by decide))
    rw [littleEndian, ofLittleEndian, ih, hbyte, Nat.pow_succ', Nat.mod_mul]

end MethodAssembler
