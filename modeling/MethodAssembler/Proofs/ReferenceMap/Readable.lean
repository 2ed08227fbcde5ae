import MethodAssembler.Proofs.ReferenceMap.Accepted

/-! # Reading an accepted native map

A map is accepted if its length is what its header says. Every slot of it has its bytes then, and its bitmap can be read. An
offset can be read only if it is no wider than a word: the header has room for widths up to 7, and no length tells them
apart. A search reads offsets in the order of probing, and ends at the first slot for its own. -/

namespace MethodAssembler.ReferenceMap

/-- The map has the length that its header says. -/
def Sized (m : ReferenceMap) : Prop := m.data.size = referenceHeaderSize + m.size * m.entryWidth

theorem sized_of_ofBytes {data : Bytes} {m : ReferenceMap} (h : ofBytes data = .ok m) : m.Sized := by
  rw [ofBytes] at h
  split at h
  · cases h
  · dsimp only at h
    split at h
    · cases h
    · rename_i hsize
      cases h
      exact not_not.mp hsize

/-! ### Slots -/

section Slots
variable {m : ReferenceMap} {i : Nat}

theorem slot_of_lt (h : m.Sized) (hi : i < m.size) : ∃ bytes, m.slot i = .ok bytes ∧ bytes.size = m.entryWidth :=
  Bytes.slice_of_lt h hi

theorem bitmapAt_of_lt (h : m.Sized) (hi : i < m.size) :
    ∃ bitmap, m.bitmapAt i = .ok bitmap ∧ bitmap.size = m.bitmapWidth := by
  obtain ⟨bytes, hslot, hsize⟩ := slot_of_lt h hi
  obtain ⟨bitmap, hbitmap, hwidth⟩ := Bytes.slice_of_le (Nat.le_of_eq hsize.symm)
  exact ⟨bitmap, by rw [bitmapAt, hslot, Checked.ok_bind, hbitmap], hwidth⟩

/-- The offset of a slot is spelled by as many bytes as the header says. -/
theorem offsetAt_eq (h : m.Sized) (hi : i < m.size) :
    ∃ bytes : Bytes, m.offsetAt i = offsetOfBytes bytes ∧ bytes.size = m.offsetWidth := by
  obtain ⟨bytes, hslot, hsize⟩ := slot_of_lt h hi
  have hle : 0 + m.offsetWidth ≤ bytes.size := by
    rw [hsize, entryWidth]
    omega
  obtain ⟨part, hpart, hwidth⟩ := Bytes.slice_of_le hle
  exact ⟨part, by rw [offsetAt, hslot, Checked.ok_bind, hpart, Checked.ok_bind], hwidth⟩

theorem offsetAt_of_narrow (h : m.Sized) (hi : i < m.size) (hw : m.offsetWidth ≤ 4) :
    ∃ offset, m.offsetAt i = .ok offset := by
  obtain ⟨bytes, hoffset, hsize⟩ := offsetAt_eq h hi
  rw [← hsize] at hw
  rw [hoffset, offsetOfBytes, decide_eq_true hw]
  exact ⟨_, rfl⟩

theorem offsetAt_of_wide (h : m.Sized) (hi : i < m.size) (hw : 4 < m.offsetWidth) : m.offsetAt i = .error .trap := by
  obtain ⟨bytes, hoffset, hsize⟩ := offsetAt_eq h hi
  rw [← hsize] at hw
  rw [hoffset, offsetOfBytes, decide_eq_false (Nat.not_le.mpr hw)]
  rfl

end Slots

/-! ### Searching -/

/-- How a search ends that comes by `left` slots from `i` on: at the first one for its offset, or past all of them. -/
inductive Search (m : ReferenceMap) (offset : UInt32) (left i : Nat) : Checked (Option Bytes) → Prop
  | found {k : Nat} {bitmap : Bytes} : k < left → m.offsetAt ((i + k) % m.size) = .ok offset →
      m.bitmapAt ((i + k) % m.size) = .ok bitmap → (∀ k' < k, m.offsetAt ((i + k') % m.size) ≠ .ok offset) →
      Search m offset left i (.ok (some bitmap))
  | missed : (∀ k < left, m.offsetAt ((i + k) % m.size) ≠ .ok offset) → Search m offset left i (.ok none)

section Searching
variable {m : ReferenceMap} {offset : UInt32} {left i : Nat}

/-- A search that does not end at its first slot goes on at the next one. -/
theorem Search.succ {r : Checked (Option Bytes)} (hi : i < m.size) (hne : m.offsetAt i ≠ .ok offset)
    (h : m.Search offset left ((i + 1) % m.size) r) : m.Search offset (left + 1) i r := by
  have hhere : m.offsetAt ((i + 0) % m.size) ≠ .ok offset := by rwa [Nat.add_zero, Nat.mod_eq_of_lt hi]
  have hbefore : ∀ k, (∀ k' < k, m.offsetAt (((i + 1) % m.size + k') % m.size) ≠ .ok offset) →
      ∀ k' < k + 1, m.offsetAt ((i + k') % m.size) ≠ .ok offset := by
    intro k hk k' hk'
    cases k' with
    | zero => exact hhere
    | succ k' => exact probe_step ▸ hk k' (by omega)
  cases h with
  | found hk ho hb hfirst =>
    rw [probe_step] at ho hb
    exact .found (by omega) ho hb (hbefore _ hfirst)
  | missed hmissed => exact .missed (hbefore left hmissed)

theorem search_findFrom (h : m.Sized) (hw : m.offsetWidth ≤ 4) (offset : UInt32) (left : Nat) (hi : i < m.size) :
    m.Search offset left i (m.findFrom offset left i) := by
  induction left generalizing i with
  | zero => exact .missed fun k hk => absurd hk (Nat.not_lt_zero k)
  | succ left ih =>
    obtain ⟨o, ho⟩ := offsetAt_of_narrow h hi hw
    rw [findFrom, ho, Checked.ok_bind]
    by_cases heq : o = offset
    · obtain ⟨bitmap, hbitmap, -⟩ := bitmapAt_of_lt h hi
      have hhere : (i + 0) % m.size = i := Nat.mod_eq_of_lt hi
      rw [if_pos heq, hbitmap]
      refine .found (k := 0) (Nat.zero_lt_succ left) ?_ ?_ fun k' hk' => absurd hk' (Nat.not_lt_zero k')
      · rw [hhere, ho, heq]
      · rwa [hhere]
    · rw [if_neg heq]
      refine Search.succ hi ?_ (ih (Nat.mod_lt _ (Nat.zero_lt_of_lt hi)))
      rw [ho]
      exact fun h => heq (Except.ok.inj h)

theorem find?_of_empty (h : m.size = 0) : m.find? offset = .ok none := by
  rw [find?, h]
  rfl

/-- A search finds the bitmap of a slot for its offset, or there is no such slot. -/
theorem find?_of_narrow (h : m.Sized) (hw : m.offsetWidth ≤ 4) (offset : UInt32) :
    (∃ i bitmap, i < m.size ∧ m.offsetAt i = .ok offset ∧ m.bitmapAt i = .ok bitmap ∧
      m.find? offset = .ok (some bitmap)) ∨
    m.find? offset = .ok none ∧ ∀ i < m.size, m.offsetAt i ≠ .ok offset := by
  rcases Nat.eq_zero_or_pos m.size with hempty | hpos
  · exact .inr ⟨find?_of_empty hempty, fun i hi => absurd hi (by omega)⟩
  · have hstart := Nat.mod_lt (hash offset).toNat hpos
    have hsearch := search_findFrom h hw offset m.size hstart
    rw [find?]
    generalize m.findFrom offset m.size _ = r at hsearch ⊢
    cases hsearch with
    | found hk ho hb hfirst => exact .inl ⟨_, _, Nat.mod_lt _ hpos, ho, hb, rfl⟩
    | missed hmissed =>
      refine .inr ⟨rfl, fun i hi => ?_⟩
      -- Probing comes by every slot, so a slot for the offset would have been met.
      obtain ⟨k, hk, rfl⟩ := exists_probe hstart hi
      exact hmissed k hk

theorem findFrom_of_wide (h : m.Sized) (hw : 4 < m.offsetWidth) (hi : i < m.size) (hleft : 0 < left) :
    m.findFrom offset left i = .error .trap := by
  cases left with
  | zero => exact absurd hleft (Nat.lt_irrefl 0)
  | succ left =>
    rw [findFrom, offsetAt_of_wide h hi hw]
    rfl

theorem find?_of_wide (h : m.Sized) (hw : 4 < m.offsetWidth) (hpos : 0 < m.size) (offset : UInt32) :
    m.find? offset = .error .trap :=
  findFrom_of_wide h hw (Nat.mod_lt _ hpos) hpos

end Searching

/-! ### Accepted maps -/

/-- Every slot of the map and every offset can be asked for: each has an answer. -/
def Readable (m : ReferenceMap) : Prop :=
  (∀ i < m.size, ∃ offset bitmap, m.offsetAt i = .ok offset ∧ m.bitmapAt i = .ok bitmap) ∧
    ∀ offset, ∃ found, m.find? offset = .ok found

/-- The bitmaps of an accepted map can be read, with the width that its header says. Its offsets can be read, and a search
    has an answer, exactly if the map has no slots or its offsets are no wider than a word. The answer is then the bitmap
    of a slot for the offset, and there is none only if no slot is for it. An accepted map with wider offsets traps
    wherever one is read, and in every search. -/
theorem readable_iff_of_ofBytes {data : Bytes} {m : ReferenceMap} (h : ofBytes data = .ok m) :
    (m.Readable ↔ m.size = 0 ∨ m.offsetWidth ≤ 4) ∧
    (∀ i < m.size, ∃ bitmap, m.bitmapAt i = .ok bitmap ∧ bitmap.size = m.bitmapWidth) ∧
    (m.offsetWidth ≤ 4 → ∀ offset : UInt32,
      (∃ i bitmap, i < m.size ∧ m.offsetAt i = .ok offset ∧ m.bitmapAt i = .ok bitmap ∧
        m.find? offset = .ok (some bitmap)) ∨
      m.find? offset = .ok none ∧ ∀ i < m.size, m.offsetAt i ≠ .ok offset) ∧
    (4 < m.offsetWidth → 0 < m.size →
      (∀ i < m.size, m.offsetAt i = .error .trap) ∧ ∀ offset, m.find? offset = .error .trap) := by
  have hsized := sized_of_ofBytes h
  refine ⟨⟨fun hread => ?_, ?_⟩, fun i hi => bitmapAt_of_lt hsized hi, find?_of_narrow hsized, fun hw hpos =>
    ⟨fun i hi => offsetAt_of_wide hsized hi hw, find?_of_wide hsized hw hpos⟩⟩
  · by_contra hnot
    obtain ⟨hpos, hwide⟩ := not_or.mp hnot
    obtain ⟨found, hfound⟩ := hread.2 0
    rw [find?_of_wide hsized (Nat.lt_of_not_le hwide) (Nat.pos_of_ne_zero hpos)] at hfound
    cases hfound
  · rintro (hempty | hnarrow)
    · exact ⟨fun i hi => absurd hi (by omega), fun offset => ⟨none, find?_of_empty hempty⟩⟩
    · refine ⟨fun i hi => ?_, fun offset => ?_⟩
      · obtain ⟨offset, hoffset⟩ := offsetAt_of_narrow hsized hi hnarrow
        obtain ⟨bitmap, hbitmap, -⟩ := bitmapAt_of_lt hsized hi
        exact ⟨offset, bitmap, hoffset, hbitmap⟩
      · rcases find?_of_narrow hsized hnarrow offset with ⟨_, bitmap, -, -, -, hfind⟩ | ⟨hfind, -⟩
        · exact ⟨some bitmap, hfind⟩
        · exact ⟨none, hfind⟩

/-- One slot with an offset of five bytes and a bitmap of one. -/
def sampleWide : Bytes := #[0x0d, 0, 1, 0, 8, 0, 0, 0, 0, 0x55]

/-- The length of the map is right, so it is accepted, although no offset of it can be read. -/
theorem ofBytes_wide_unreadable : ∃ m, ofBytes sampleWide = .ok m ∧ m.size = 1 ∧ m.offsetAt 0 = .error .trap ∧
    m.bitmapAt 0 = .ok #[0x55] ∧ m.find? 8 = .error .trap := by
  exact ⟨⟨sampleWide⟩, by decide +kernel⟩

/-- Two slots with offsets of two bytes; both searches start at the second slot, and one of them wraps around. -/
def sampleNarrow : Bytes := #[0x0a, 0, 2, 0, 7, 0, 0xaa, 9, 0, 0x55]

theorem readable_iff_of_ofBytes_sample :
    (ofBytes sampleNarrow = .ok ⟨sampleNarrow⟩ ∧ Readable ⟨sampleNarrow⟩) ∧
      ofBytes sampleWide = .ok ⟨sampleWide⟩ ∧ ¬Readable ⟨sampleWide⟩ := by
  have hnarrow : ofBytes sampleNarrow = .ok ⟨sampleNarrow⟩ := by decide +kernel
  have hwide : ofBytes sampleWide = .ok ⟨sampleWide⟩ := by decide +kernel
  refine ⟨⟨hnarrow, (readable_iff_of_ofBytes hnarrow).1.mpr (.inr (by decide))⟩, hwide, fun hread => ?_⟩
  exact absurd ((readable_iff_of_ofBytes hwide).1.mp hread) (by decide)

end MethodAssembler.ReferenceMap
