import MethodAssembler.Proofs.ReferenceMap.Native

/-! # Native maps for any accepted verifier map

A verifier map that was accepted can be searched for every source PC, wherever its bytes come from, and all its bitmaps
have the width that its header says. So making a native map of it never runs out of slots and never meets a bitmap of
another width, and the native map answers for the first safepoint at an offset. -/

namespace MethodAssembler

namespace Bytes

theorem slice_of_le {bytes : Bytes} {place count : Nat} (h : place + count ≤ bytes.size) :
    ∃ part, bytes.slice place count = .ok part ∧ part.size = count := by
  refine ⟨bytes.extract place (place + count), ?_, ?_⟩
  · simp only [slice, h, decide_true, require_true, Checked.ok_bind, Checked.pure_eq]
  · rw [Array.size_extract, Nat.min_eq_left h, Nat.add_sub_cancel_left]

/-- Bytes that are long enough for a header and some records of one width have a record at each place. -/
theorem slice_of_lt {bytes : Bytes} {header count width i : Nat} (h : bytes.size = header + count * width)
    (hi : i < count) :
    ∃ part, bytes.slice (header + i * width) width = .ok part ∧ part.size = width := by
  refine slice_of_le ?_
  calc header + i * width + width
    _ = header + (i + 1) * width := by rw [Nat.add_assoc, Nat.succ_mul]
    _ ≤ header + count * width := Nat.add_le_add_left (Nat.mul_le_mul_right _ hi) _
    _ = bytes.size := h.symm

end Bytes

/-! ### Searching an accepted map -/

namespace VerifierMap

/-- The map has an entry for a source PC. -/
def Lists (live : VerifierMap) (pc : UInt32) : Prop := ∃ i < live.size, live.dexPcAt i = .ok pc

/-- The map has the length that its header says. -/
def Sized (live : VerifierMap) : Prop := live.data.size = referenceHeaderSize + live.size * live.entryWidth

theorem sized_of_ofBytes {data : Bytes} {live : VerifierMap} (h : ofBytes data = .ok live) : live.Sized := by
  rw [ofBytes] at h
  split at h
  · cases h
  · split at h
    · dsimp only at h
      split at h
      · cases h
      · rename_i hsize
        cases h
        exact not_not.mp hsize
    · cases h

theorem bitmapWidth_lt (live : VerifierMap) : live.bitmapWidth < 2 ^ 13 := by
  have hlow := (live.data.getD 1 0).toNat_lt
  have hhigh := (live.data.getD 0 0).toNat_lt
  simp only [bitmapWidth, headerByte]
  omega

section Entries
variable {live : VerifierMap} {i : Nat}

theorem entry_of_lt (h : live.Sized) (hi : i < live.size) :
    ∃ bytes, live.entry i = .ok bytes ∧ bytes.size = live.entryWidth := Bytes.slice_of_lt h hi

theorem dexPcAt_of_lt (h : live.Sized) (hi : i < live.size) : ∃ pc, live.dexPcAt i = .ok pc := by
  obtain ⟨bytes, hentry, hsize⟩ := entry_of_lt h hi
  have hle : 0 + live.format.pcWidth ≤ bytes.size := by
    rw [hsize, entryWidth]
    omega
  obtain ⟨pc, hpc, -⟩ := Bytes.slice_of_le hle
  exact ⟨_, by rw [dexPcAt, hentry, Checked.ok_bind, hpc]; rfl⟩

theorem bitmapAt_of_lt (h : live.Sized) (hi : i < live.size) :
    ∃ bitmap, live.bitmapAt i = .ok bitmap ∧ bitmap.size = live.bitmapWidth := by
  obtain ⟨bytes, hentry, hsize⟩ := entry_of_lt h hi
  obtain ⟨bitmap, hbitmap, hwidth⟩ := Bytes.slice_of_le (Nat.le_of_eq hsize.symm)
  exact ⟨bitmap, by rw [bitmapAt, hentry, Checked.ok_bind, hbitmap], hwidth⟩

/-- A search among some entries has an answer, and finds a bitmap exactly if one of them is for the source PC. -/
theorem findFrom_of_le (h : live.Sized) (pc : UInt32) {left : Nat} (hi : i + left ≤ live.size) :
    (∃ bitmap, live.findFrom pc left i = .ok (some bitmap) ∧ bitmap.size = live.bitmapWidth ∧ live.Lists pc) ∨
      live.findFrom pc left i = .ok none ∧ ∀ j, i ≤ j → j < i + left → live.dexPcAt j ≠ .ok pc := by
  induction left generalizing i with
  | zero => exact .inr ⟨rfl, fun j hle hlt => absurd hlt (Nat.not_lt.mpr hle)⟩
  | succ left ih =>
    have hlt : i < live.size := by omega
    obtain ⟨x, hx⟩ := dexPcAt_of_lt h hlt
    rw [findFrom, hx, Checked.ok_bind]
    -- Every entry can be read, so the search ends at the first one for the source PC.
    by_cases heq : x = pc
    · obtain ⟨bitmap, hbitmap, hwidth⟩ := bitmapAt_of_lt h hlt
      rw [if_pos heq, hbitmap]
      exact .inl ⟨bitmap, rfl, hwidth, i, hlt, heq ▸ hx⟩
    · rw [if_neg heq]
      rcases ih (show i + 1 + left ≤ live.size by omega) with hfound | ⟨hnone, habsent⟩
      · exact .inl hfound
      · refine .inr ⟨hnone, fun j hle hj hpc => ?_⟩
        rcases Nat.eq_or_lt_of_le hle with rfl | hle
        · rw [hx] at hpc
          exact heq (Except.ok.inj hpc)
        · exact habsent j hle (by omega) hpc

theorem Sized.knows (h : live.Sized) : live.Knows live.Lists where
  found := by
    rintro pc ⟨i, hi, hpc⟩
    rcases findFrom_of_le h pc (Nat.le_of_eq (Nat.zero_add live.size)) with ⟨bitmap, hfind, hwidth, -⟩ | ⟨-, habsent⟩
    · exact ⟨bitmap, hfind, hwidth⟩
    · exact absurd hpc (habsent i (Nat.zero_le i) (by omega))
  missing := by
    intro pc hpc
    rcases findFrom_of_le h pc (Nat.le_of_eq (Nat.zero_add live.size)) with ⟨-, -, -, hlisted⟩ | ⟨hnone, -⟩
    · exact absurd hlisted hpc
    · exact hnone

end Entries

end VerifierMap

namespace ReferenceMap

/-- For a verifier map that was accepted and any bytes at all, making the native map does not trap, does not run out of
    slots and meets no bitmap of another width. It succeeds exactly if the bytes are a mapping table with fewer than
    2 ^ 16 safepoints and the verifier lists all their source PCs. The native map is then accepted, and for every offset a
    search in it finds the verifier's bitmap for the source PC of the first safepoint at this offset, and nothing if
    there is none. -/
theorem create_serves_first {data : Bytes} {live : VerifierMap} (hlive : VerifierMap.ofBytes data = .ok live)
    (mapping : Bytes) :
    ((∃ built, create mapping live = .ok built) ↔
      ∃ table, MappingTable.decode mapping = .ok table ∧ table.pcToDex.length < 65536 ∧
        ∀ e ∈ table.pcToDex, live.Lists e.dexPc) ∧
    (∀ fault, create mapping live = .error fault → fault ≠ .trap ∧
      (∀ capacity, fault ≠ .refused (.referenceMapFull capacity)) ∧
      ∀ expected actual, fault ≠ .refused (.bitmapWidthMismatch expected actual)) ∧
    ∀ built table, create mapping live = .ok built → MappingTable.decode mapping = .ok table →
      ∃ m, ofBytes built.table = .ok m ∧ ∀ offset : UInt32,
        (∀ e, table.pcToDex.find? (·.nativeOffset = offset) = some e →
          ∃ bitmap, live.find? e.dexPc = .ok (some bitmap) ∧ m.find? offset = .ok (some bitmap)) ∧
        ((∀ e ∈ table.pcToDex, e.nativeOffset ≠ offset) → m.find? offset = .ok none) := by
  have hknows := (VerifierMap.sized_of_ofBytes hlive).knows
  have houtcome := create_outcome hknows live.bitmapWidth_lt mapping
  refine ⟨houtcome.exists_ok_iff, fun fault hfault => (hfault ▸ houtcome).of_error, fun built table hbuilt htable => ?_⟩
  obtain ⟨hlisted, m, hm, hserves⟩ := (hbuilt ▸ houtcome).serves htable
  refine ⟨m, hm, fun offset => ⟨fun e he => ?_, fun habsent => ?_⟩⟩
  · obtain ⟨bitmap, hfind, -⟩ := hknows.found e.dexPc (hlisted e (List.mem_of_find?_eq_some he))
    refine ⟨bitmap, hfind, ?_⟩
    rw [hserves offset, he]
    exact hfind
  · have hnone : table.pcToDex.find? (·.nativeOffset = offset) = none :=
      List.find?_eq_none.mpr fun e he heq => habsent e he (of_decide_eq_true heq)
    rw [hserves offset, hnone]

/-- Bitmaps of one byte for the source PCs 0 and 9. -/
def sampleLive : VerifierMap := { data := #[2, 1, 2, 0, 0, 0x55, 9, 0xaa], format := .compact8 }

/-- Safepoints at the offsets 8 and 12, and behind them, by a difference that wraps around, another one at 8. -/
def sampleMapping : Bytes := #[3, 3, 8, 9, 4, 0x77, 0xfc, 0xff, 0xff, 0xff, 0x0f, 0]

theorem create_serves_first_sample :
    VerifierMap.ofBytes sampleLive.data = .ok sampleLive ∧ ∃ built m, create sampleMapping sampleLive = .ok built ∧
      ofBytes built.table = .ok m ∧ m.find? 8 = .ok (some #[0xaa]) ∧ m.find? 12 = .ok (some #[0x55]) ∧
      m.find? 16 = .ok none := by
  have hlive : VerifierMap.ofBytes sampleLive.data = .ok sampleLive := by decide +kernel
  have htable : MappingTable.decode sampleMapping = .ok ⟨[⟨8, 9⟩, ⟨12, 0⟩, ⟨8, 0⟩], []⟩ := by decide +kernel
  have hzero : sampleLive.find? 0 = .ok (some #[0x55]) := by decide +kernel
  have hnine : sampleLive.find? 9 = .ok (some #[0xaa]) := by decide +kernel
  have hlisted : ∀ e ∈ [⟨8, 9⟩, ⟨12, 0⟩, (⟨8, 0⟩ : MappingEntry)], sampleLive.Lists e.dexPc := by
    simp only [List.forall_mem_cons, List.not_mem_nil, false_imp_iff, implies_true, and_true]
    exact ⟨⟨1, by decide, by decide +kernel⟩, ⟨0, by decide, by decide +kernel⟩, ⟨0, by decide, by decide +kernel⟩⟩
  obtain ⟨hiff, -, hserves⟩ := create_serves_first hlive sampleMapping
  obtain ⟨built, hbuilt⟩ := hiff.mpr ⟨_, htable, by decide, hlisted⟩
  obtain ⟨m, hm, hfind⟩ := hserves built _ hbuilt htable
  obtain ⟨_, hbitmap, hfirst⟩ := (hfind 8).1 ⟨8, 9⟩ rfl
  obtain ⟨_, hbitmap', hother⟩ := (hfind 12).1 ⟨12, 0⟩ rfl
  cases hnine.symm.trans hbitmap
  cases hzero.symm.trans hbitmap'
  exact ⟨hlive, built, m, hbuilt, hm, hfirst, hother, (hfind 16).2 (by decide)⟩

end ReferenceMap

end MethodAssembler
