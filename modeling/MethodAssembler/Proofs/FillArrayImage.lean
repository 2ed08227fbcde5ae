import MethodAssembler.Proofs.LoadedConstants
import MethodAssembler.Proofs.Acceptance.Filling

/-! # Fill-arrays in the image

Element bytes are packed into units, two to a unit, and the units are written out as bytes again. So they come back in
order, behind a header that spells the ident, the width and the number of the elements. A fill-array takes an even number of
bytes: where its size is odd, one more byte follows. -/

namespace MethodAssembler

namespace FillArray

/-! ### Units as bytes -/

/-- Units as bytes, the low byte first. -/
def unitBytes (units : List UInt16) : List UInt8 := units.flatMap fun unit => littleEndian 2 unit.toNat

theorem unitBytes_cons (unit : UInt16) (units : List UInt16) :
    unitBytes (unit :: units) = littleEndian 2 unit.toNat ++ unitBytes units := List.flatMap_cons

theorem unitBytes_take (units : List UInt16) (n : Nat) : unitBytes (units.take n) = (unitBytes units).take (2 * n) := by
  induction units generalizing n with
  | nil => simp [unitBytes]
  | cons unit units ih =>
    cases n with
    | zero => rfl
    | succ n =>
      have hunit : (littleEndian 2 unit.toNat).length ≤ 2 * (n + 1) := by
        rw [littleEndian_length]
        omega
      rw [List.take_succ_cons, unitBytes_cons, unitBytes_cons, ih, List.take_append, List.take_of_length_le hunit,
        littleEndian_length, show 2 * (n + 1) - 2 = 2 * n by omega]

/-- Two bytes are packed into a unit that spells them. -/
theorem littleEndian_pair (low high : UInt8) :
    littleEndian 2 (UInt16.ofNat (low.toNat + 256 * high.toNat)).toNat = [low, high] := by
  have hlow := low.toNat_lt
  have hhigh := high.toNat_lt
  rw [UInt16.toNat_ofNat_of_lt' (by rw [UInt16.size]; omega), littleEndian, littleEndian, littleEndian,
    show (low.toNat + 256 * high.toNat) % 256 = low.toNat by omega,
    show (low.toNat + 256 * high.toNat) / 256 % 256 = high.toNat by omega, UInt8.ofNat_toNat, UInt8.ofNat_toNat]

/-- Packed bytes come back in order, with a zero behind an odd number of them. -/
theorem unitBytes_packBytes (data : List UInt8) :
    unitBytes (packBytes data) = data ++ List.replicate (data.length % 2) 0 := by
  fun_induction packBytes data with
  | case1 => rfl
  | case2 low => exact congrArg (· ++ []) (littleEndian_pair low 0)
  | case3 low high rest ih =>
    rw [unitBytes_cons, littleEndian_pair, ih, List.length_cons, List.length_cons, Nat.add_assoc, Nat.add_mod_right]
    rfl

/-! ### Elements -/

/-- The header of a fill-array as bytes. -/
def header (width : UInt16) (count : Nat) : List UInt8 :=
  littleEndian 2 0x0300 ++ littleEndian 2 width.toNat ++ littleEndian 4 count

theorem length_header (width : UInt16) (count : Nat) : (header width count).length = 8 := by
  simp [header]

theorem unitBytes_header (width : UInt16) {count : Nat} (h : count < 2 ^ 32) (units : List UInt16) :
    unitBytes (ident :: width :: .ofNat (count % 65536) :: .ofNat (count / 65536 % 65536) :: units) =
      header width count ++ unitBytes units := by
  have hlow : (UInt16.ofNat (count % 65536)).toNat = count % 65536 := UInt16.toNat_ofNat_of_lt' (Nat.mod_lt _ (by decide))
  have hhigh : (UInt16.ofNat (count / 65536 % 65536)).toNat = count / 65536 % 65536 :=
    UInt16.toNat_ofNat_of_lt' (Nat.mod_lt _ (by decide))
  have hcount : littleEndian 4 count =
      littleEndian 2 (count % 65536) ++ littleEndian 2 (count / 65536 % 65536) := by
    rw [littleEndian_append 2 2 (count % 65536) (count / 65536 % 65536) (Nat.mod_lt _ (by decide))]
    congr 1
    omega
  simp only [unitBytes_cons, hlow, hhigh, header, hcount, List.append_assoc]
  rfl

theorem take_padded (data : List UInt8) {n : Nat} (h : n ≤ data.length) :
    (data ++ List.replicate (data.length % 2) 0).take (n + n % 2) = data.take n ++ ((data ++ [0]).drop n).take (n % 2) := by
  -- the zero of an odd number of bytes shows, that of an even number would stand behind the cut
  have hpadded : (data ++ List.replicate (data.length % 2) 0).take (n + n % 2) = (data ++ [0]).take (n + n % 2) := by
    rcases Nat.mod_two_eq_zero_or_one data.length with heven | hodd
    · have hle : n + n % 2 ≤ data.length := by omega
      rw [List.take_append_of_le_length hle, List.take_append_of_le_length hle]
    · rw [hodd]
      rfl
  rw [hpadded, List.take_add, List.take_append_of_le_length h]

/-- The bytes that elements come to: the header, the complete elements, and one more byte if these are odd. -/
theorem bytes_ofElements {width : UInt16} {data : List UInt8} {dexPc : UInt32} {f : FillArray} {n : Nat}
    (hcount : data.length / max width.toNat 1 < 2 ^ 32) (hn : n ≤ data.length) (hsize : f.size.toNat = 8 + n)
    (h : ofElements width data dexPc = .ok f) :
    f.bytes = header width (data.length / max width.toNat 1) ++ data.take n ++ ((data ++ [0]).drop n).take (n % 2) := by
  have hunits := congrArg FillArray.units (parse_eq_ok h).1
  -- the units are cut behind the last one that the size touches
  have heven : 2 * unitsFor f.size.toNat = 8 + (n + n % 2) := by
    rw [hsize, unitsFor]
    omega
  rw [bytes, ← unitBytes, unitBytes_take, heven, hunits, List.toList_toArray,
    unitBytes_header width hcount, List.take_append,
    length_header, Nat.add_sub_cancel_left, List.take_of_length_le (by rw [length_header]; omega), unitBytes_packBytes,
    take_padded data hn, List.append_assoc]

/-- Elements are taken, with a size that counts the complete ones only. -/
theorem ofElements_size {width : UInt16} (hwidth : 1 ≤ width.toNat) {data : List UInt8} (hlength : data.length < 2 ^ 32 - 8)
    (dexPc : UInt32) : ∃ f, ofElements width data dexPc = .ok f ∧ f.dexPc = dexPc ∧
      f.size.toNat = 8 + data.length / width.toNat * width.toNat := by
  have hle := Nat.div_mul_le_self data.length width.toNat
  have hdescribed : FillDescription.size ⟨dexPc, width, data⟩ = 8 + data.length / width.toNat * width.toNat := by
    rw [FillDescription.size, Nat.max_eq_left hwidth, Nat.mul_comm]
  obtain ⟨f, hf, hsize⟩ := ofElements_of_lt ⟨dexPc, width, data⟩ (by omega)
  exact ⟨f, hf, congrArg FillArray.dexPc (parse_eq_ok hf).1, hsize.trans hdescribed⟩

end FillArray

/-! ### Installing fill-arrays -/

theorem FillArray.Accepted.length_bytes {f : FillArray} (h : f.Accepted) : f.bytes.length = roundUp f.size.toNat 2 := by
  rw [FillArray.length_bytes, Nat.min_eq_left h.units_le]
  rfl

namespace Image
variable {f : FillArray} {m m' : Image}

/-- A fill-array that was accepted is refused only by an image that is past it. -/
theorem installFillArray_error {fault : Fault} (h : f.Accepted) (he : installFillArray f m = .error fault m') :
    ∃ reached, fault = .refused (.layoutMismatch .fillArray f.offset reached) := by
  rcases seek_bind_error he with hpast | ⟨m₁, hcopy⟩
  · exact hpast
  · simp only [h.units_le, decide_true, require_true, Stateful.lift_ok_bind_run] at hcopy
    cases hcopy

/-- An image that is not past a fill-array gets zeros up to there and then its bytes, and goes on with the others. -/
theorem installFillArrays_cons (h : f.Accepted) (hm : m.code.size ≤ f.offset.toNat) :
    ∃ m', (∀ fills, installFillArrays (f :: fills) m = installFillArrays fills m') ∧
      m'.code.toList = m.code.toList ++ List.replicate (f.offset.toNat - m.code.size) 0 ++ f.bytes ∧
      m'.code.size = f.offset.toNat + roundUp f.size.toNat 2 := by
  obtain ⟨m', hrun, hextends⟩ := installFillArray_extends h.units_le hm
  refine ⟨m', fun fills => Stateful.bind_of_ok hrun, ?_, ?_⟩
  · rw [hextends.code]
    exact Bytes.put_toList m.code ⟨f.offset, f.bytes⟩
  · rw [hextends.code, ← h.length_bytes]
    exact Bytes.put_size hm

/-- Elements reach the image unchanged: they are taken whatever their width and number, and behind what the image has and
    zeros up to the offset stand the header, the complete elements and, if these are odd, one byte more. Fill-arrays that
    were taken from whatever units are refused for their offset only: their units are never read past the end. -/
theorem installFillArrays_copies_elements :
    (∀ (width : UInt16) (data : List UInt8) (dexPc : UInt32), 1 ≤ width.toNat → data.length < 2 ^ 32 - 8 →
      ∃ f, FillArray.ofElements width data dexPc = .ok f ∧ f.dexPc = dexPc ∧
        f.size.toNat = 8 + data.length / width.toNat * width.toNat ∧
        ∀ (offset : UInt32) (m : Image), m.code.size ≤ offset.toNat →
          ∃ m' last, installFillArrays [{ f with offset }] m = .ok () m' ∧
            (∀ fills, installFillArrays ({ f with offset } :: fills) m = installFillArrays fills m') ∧
            m'.code.toList = m.code.toList ++ List.replicate (offset.toNat - m.code.size) 0 ++
              (littleEndian 2 0x0300 ++ littleEndian 2 width.toNat ++ littleEndian 4 (data.length / width.toNat) ++
                data.take (data.length / width.toNat * width.toNat) ++ last) ∧
            last = ((data ++ [0]).drop (data.length / width.toNat * width.toNat)).take (f.size.toNat % 2) ∧
            m'.code.size = offset.toNat + roundUp f.size.toNat 2) ∧
    (∀ (fills : List FillArray) (m : Image) (fault : Fault), (∀ f ∈ fills, f.Accepted) →
      Stateful.outcome (installFillArrays fills m) = .error fault →
      ∃ f ∈ fills, ∃ reached, fault = .refused (.layoutMismatch .fillArray f.offset reached)) := by
  refine ⟨fun width data dexPc hwidth hlength => ?_, fun fills m fault haccepted hfault => ?_⟩
  · obtain ⟨f, hf, hdexPc, hsize⟩ := FillArray.ofElements_size hwidth hlength dexPc
    refine ⟨f, hf, hdexPc, hsize, fun offset m hm => ?_⟩
    have haccepted : f.Accepted := FillArray.accepted_of_parse hf
    have hbytes := FillArray.bytes_ofElements (Nat.lt_of_le_of_lt (Nat.div_le_self _ _) (by omega))
      (Nat.div_mul_le_self data.length width.toNat) hsize hf
    obtain ⟨m', hrun, hcode, hend⟩ := installFillArrays_cons (f := { f with offset }) haccepted hm
    rw [Nat.max_eq_left hwidth] at hbytes
    refine ⟨m', _, hrun [], hrun, hcode.trans (congrArg _ hbytes), ?_, hend⟩
    congr 1
    omega
  · obtain ⟨m', hrun⟩ := Stateful.exists_of_outcome_error hfault
    obtain ⟨f, hf, m₁, he⟩ := Stateful.forM_error hrun
    exact ⟨f, hf, installFillArray_error (haccepted f hf) he⟩

/-- Five bytes are one element of three bytes. The size is odd, and the byte that rounds it up is the fourth one. No
    elements are a fill-array too, which an image that is past it refuses. -/
theorem installFillArrays_copies_elements_odd :
    (∃ f, FillArray.ofElements 3 [1, 2, 3, 4, 5] 7 = .ok f ∧ f.size.toNat = 11 ∧
      ∃ m', installFillArrays [{ f with offset := 4 }] { code := #[0xaa, 0xbb] } = .ok () m' ∧
        m'.code.toList = [0xaa, 0xbb, 0, 0, 0x00, 0x03, 3, 0, 1, 0, 0, 0, 1, 2, 3, 4]) ∧
    (∃ f, FillArray.Accepted f ∧ ∃ fault,
      Stateful.outcome (installFillArrays [f] { code := #[0xaa, 0xbb] }) = .error fault ∧
      ∃ f' ∈ [f], ∃ reached, fault = .refused (.layoutMismatch .fillArray f'.offset reached)) := by
  refine ⟨?_, ?_⟩
  · obtain ⟨f, hf, -, hsize, hinstall⟩ :=
      installFillArrays_copies_elements.1 3 [1, 2, 3, 4, 5] 7 (by decide) (by decide)
    obtain ⟨m', last, hrun, -, hcode, hlast, -⟩ := hinstall 4 { code := #[0xaa, 0xbb] } (by decide)
    refine ⟨f, hf, hsize, m', hrun, ?_⟩
    rw [hcode, hlast, hsize]
    decide
  · have haccepted : FillArray.Accepted ⟨#[0x0300, 1, 0, 0], 7, 8, 0⟩ := ⟨#[0x0300, 1, 0, 0], 7, rfl⟩
    refine ⟨_, haccepted, .refused (.layoutMismatch .fillArray 0 2), rfl, ?_⟩
    exact installFillArrays_copies_elements.2 _ { code := #[0xaa, 0xbb] } _ (List.forall_mem_singleton.mpr haccepted) rfl

end Image

end MethodAssembler
