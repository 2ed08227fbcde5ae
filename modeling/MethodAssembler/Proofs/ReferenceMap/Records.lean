import MethodAssembler.Proofs.Words
import MethodAssembler.ReferenceMap.Verifier

/-! # Records and bitmaps

Both reference maps are a header of four bytes and records of one width, each a number and a bitmap. A record is read
back from its place, and a bit of a bitmap is set exactly if its register was. -/

namespace MethodAssembler

/-! ### Records -/

namespace Bytes

theorem slice_middle (xs ys zs : List UInt8) {place count : Nat} (hp : place = xs.length) (hc : count = ys.length) :
    slice (xs ++ ys ++ zs).toArray place count = .ok ys.toArray := by
  subst hp hc
  have hle : xs.length + ys.length ≤ (xs ++ ys ++ zs).toArray.size := by
    simp only [List.size_toArray, List.length_append]
    omega
  simp only [slice, hle, decide_true, require_true, Checked.ok_bind, Checked.pure_eq, Except.ok.injEq]
  apply Array.toList_inj.mp
  rw [Array.toList_extract, List.extract_eq_take_drop, Nat.add_sub_cancel_left, List.append_assoc, List.drop_left,
    List.take_left]

theorem slice_record {α : Type} {header : List UInt8} {records : List α} {bytes : α → List UInt8} {width i : Nat} {r : α}
    (hw : ∀ r ∈ records, (bytes r).length = width) (hi : records[i]? = some r) :
    slice (header ++ records.flatMap bytes).toArray (header.length + i * width) width = .ok (bytes r).toArray := by
  obtain ⟨hlt, hr⟩ := List.getElem?_eq_some_iff.mp hi
  have hmem : r ∈ records := hr ▸ List.getElem_mem hlt
  have hsplit : records = records.take i ++ r :: records.drop (i + 1) := by
    rw [← hr, ← List.drop_eq_getElem_cons hlt, List.take_append_drop]
  have hfront : ((records.take i).flatMap bytes).length = i * width := by
    rw [List.length_flatMap, List.map_congr_left fun x hx => hw x (List.mem_of_mem_take hx), List.map_const',
      List.sum_replicate_nat, List.length_take, Nat.min_eq_left (Nat.le_of_lt hlt)]
  have hall : header ++ records.flatMap bytes =
      (header ++ (records.take i).flatMap bytes) ++ bytes r ++ (records.drop (i + 1)).flatMap bytes :=
    (congrArg (header ++ ·.flatMap bytes) hsplit).trans (by simp)
  rw [hall]
  exact slice_middle _ _ _ (by rw [List.length_append, hfront]) (hw r hmem).symm

theorem size_records {α : Type} {header : List UInt8} {records : List α} {bytes : α → List UInt8} {width : Nat}
    (hw : ∀ r ∈ records, (bytes r).length = width) :
    (header ++ records.flatMap bytes).toArray.size = header.length + records.length * width := by
  rw [List.size_toArray, List.length_append, List.length_flatMap, List.map_congr_left hw, List.map_const',
    List.sum_replicate_nat]

end Bytes

/-! ### Bitmaps -/

/-- Whether the bit of a register is set; there are no bits behind the end. -/
def hasBit (bitmap : Bytes) (register : Nat) : Bool := (bitmap.getD (register / 8) 0).toNat.testBit (register % 8)

/-- Bitmaps of one size are told apart by their bits. -/
theorem Bytes.eq_of_hasBit {a b : Bytes} (hsize : a.size = b.size) (h : ∀ r, hasBit a r = hasBit b r) : a = b := by
  refine Array.ext hsize fun i hi hi' => UInt8.toNat_inj.mp (Nat.eq_of_testBit_eq fun k => ?_)
  by_cases hk : k < 8
  · have hbyte : (8 * i + k) / 8 = i := by omega
    have hbit : (8 * i + k) % 8 = k := by omega
    have hr := h (8 * i + k)
    rwa [hasBit, hasBit, hbyte, hbit, Array.getD_eq_getD_getElem?, Array.getD_eq_getD_getElem?,
      Array.getElem?_eq_getElem hi, Array.getElem?_eq_getElem hi'] at hr
  · have hpow : 2 ^ 8 ≤ 2 ^ k := Nat.pow_le_pow_right (by decide) (Nat.le_of_not_lt hk)
    rw [Nat.testBit_lt_two_pow (Nat.lt_of_lt_of_le (UInt8.toNat_lt _) hpow),
      Nat.testBit_lt_two_pow (Nat.lt_of_lt_of_le (UInt8.toNat_lt _) hpow)]

namespace VerifierMap

theorem size_setBit (bitmap : Bytes) (register : Nat) : (setBit bitmap register).size = bitmap.size :=
  Array.size_modify

theorem size_bitmapOf (width : Nat) (registers : List Nat) : (bitmapOf width registers).size = width := by
  have hfold : ∀ bitmap : Bytes, (registers.foldl setBit bitmap).size = bitmap.size := by
    induction registers with
    | nil => exact fun _ => rfl
    | cons r registers ih => exact fun bitmap => (ih _).trans (size_setBit bitmap r)
  rw [bitmapOf, hfold, Array.size_replicate]

theorem hasBit_setBit {bitmap : Bytes} {register : Nat} (h : register / 8 < bitmap.size) (r : Nat) :
    hasBit (setBit bitmap register) r = true ↔ r = register ∨ hasBit bitmap r = true := by
  have hpow : (UInt8.ofNat (2 ^ (register % 8))).toNat = 2 ^ (register % 8) :=
    UInt8.toNat_ofNat_of_lt' (Nat.pow_lt_pow_right (by decide) (Nat.mod_lt _ (by decide)))
  by_cases hbyte : register / 8 = r / 8
  · have hlt : r / 8 < bitmap.size := hbyte ▸ h
    have hbit : register % 8 = r % 8 ↔ r = register := by omega
    simp only [hasBit, setBit, Array.getD_eq_getD_getElem?, Array.getElem?_modify, if_pos hbyte,
      Array.getElem?_eq_getElem hlt, Option.map_some, Option.getD_some, UInt8.toNat_or, Nat.testBit_or, hpow,
      Nat.testBit_two_pow, Bool.or_eq_true, decide_eq_true_eq, hbit]
    exact Or.comm
  · have hne : r ≠ register := fun heq => hbyte (heq ▸ rfl)
    simp only [hasBit, setBit, Array.getD_eq_getD_getElem?, Array.getElem?_modify, if_neg hbyte, hne, false_or]

/-- The bits of a bitmap are those of its registers. -/
theorem hasBit_bitmapOf {width : Nat} {registers : List Nat} (h : ∀ r ∈ registers, r / 8 < width) (r : Nat) :
    hasBit (bitmapOf width registers) r = true ↔ r ∈ registers := by
  have hfold : ∀ bitmap : Bytes, (∀ r ∈ registers, r / 8 < bitmap.size) →
      (hasBit (registers.foldl setBit bitmap) r = true ↔ r ∈ registers ∨ hasBit bitmap r = true) := by
    clear h
    induction registers with
    | nil => exact fun _ _ => by simp
    | cons x registers ih =>
      intro bitmap h
      rw [List.foldl_cons, ih (setBit bitmap x), hasBit_setBit (h x List.mem_cons_self), List.mem_cons, or_assoc,
        or_left_comm]
      exact fun y hy => size_setBit bitmap x ▸ h y (List.mem_cons_of_mem _ hy)
  have hzero : hasBit (.replicate width 0) r = false := by
    simp only [hasBit, Array.getD_eq_getD_getElem?, Array.getElem?_replicate]
    split <;> simp
  rw [bitmapOf, hfold _ (by simpa using h), hzero]
  simp

/-- A bitmap is told by the members of its list of registers. -/
theorem bitmapOf_congr {width : Nat} {registers registers' : List Nat} (hw : ∀ r ∈ registers, r / 8 < width)
    (h : ∀ r, r ∈ registers ↔ r ∈ registers') : bitmapOf width registers = bitmapOf width registers' := by
  refine Bytes.eq_of_hasBit ((size_bitmapOf _ _).trans (size_bitmapOf _ _).symm) fun r => Bool.eq_iff_iff.mpr ?_
  rw [hasBit_bitmapOf hw, hasBit_bitmapOf fun r hr => hw r ((h r).mpr hr), h]

end VerifierMap

end MethodAssembler
