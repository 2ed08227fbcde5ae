import Mathlib.Data.List.Perm.Basic
import Mathlib.Data.List.ReduceOption
import MethodAssembler.Proofs.ReferenceMap.Verifier
import MethodAssembler.ReferenceMap.Native

/-! # Native reference maps

The slots of a native map hold its entries in some order. As long as there are fewer entries than slots the probing for
a free slot ends at one, so that a table with a slot for each safepoint ends up full. A search walks the slots in the
same order as the probing did, and meets the entry for an offset that was entered first before any other for that
offset (`Builder.Meets`); it answers nothing only for an offset that no entry has. -/

namespace MethodAssembler.ReferenceMap

/-! ### Probing -/

section Probing
variable {b : Builder}

theorem probe_step {i k size : Nat} : ((i + 1) % size + k) % size = (i + (k + 1)) % size := by
  rw [Nat.mod_add_mod, Nat.add_assoc, Nat.add_comm 1 k]

/-- Probing from anywhere comes by every slot. -/
theorem exists_probe {i j size : Nat} (hi : i < size) (hj : j < size) : ∃ k < size, (i + k) % size = j := by
  by_cases h : i ≤ j
  · exact ⟨j - i, by omega, by rw [Nat.add_sub_cancel' h, Nat.mod_eq_of_lt hj]⟩
  · refine ⟨j + size - i, by omega, ?_⟩
    rw [Nat.add_sub_cancel' (by omega), Nat.add_mod_right, Nat.mod_eq_of_lt hj]

/-- Probing ends at a free slot, and all slots that it comes by before are taken. -/
theorem freeSlot_of_free {left i k : Nat} (hi : i < b.capacity) (hk : k < left)
    (hfree : b.slots[(i + k) % b.capacity]? = some none) :
    ∃ j < left, b.freeSlot left i = .ok ((i + j) % b.capacity) ∧ b.slots[(i + j) % b.capacity]? = some none ∧
      ∀ j' < j, ∃ e, b.slots[(i + j') % b.capacity]? = some (some e) := by
  induction left generalizing i k with
  | zero => omega
  | succ left ih =>
    have hslot : b.slots[i]? = some b.slots[i] := Array.getElem?_eq_getElem hi
    have hhere : (i + 0) % b.capacity = i := Nat.mod_eq_of_lt hi
    rw [Builder.freeSlot, hslot, present_some, Checked.ok_bind]
    cases htaken : b.slots[i] with
    | none =>
      refine ⟨0, Nat.zero_lt_succ left, by rw [hhere]; rfl, ?_, fun j' hj' => absurd hj' (Nat.not_lt_zero j')⟩
      rw [hhere, hslot, htaken]
    | some e =>
      cases k with
      | zero =>
        rw [hhere, hslot, htaken] at hfree
        cases hfree
      | succ k =>
        -- This slot is taken, and the free one is a step nearer to the next.
        rw [← probe_step] at hfree
        obtain ⟨j, hj, hrun, hslot', hbefore⟩ := ih (Nat.mod_lt _ (Nat.zero_lt_of_lt hi)) (by omega) hfree
        rw [probe_step] at hrun hslot'
        refine ⟨j + 1, by omega, hrun, hslot', fun j' hj' => ?_⟩
        cases j' with
        | zero => exact ⟨e, by rw [hhere, hslot, htaken]⟩
        | succ j' =>
          rw [← probe_step]
          exact hbefore j' (by omega)

/-- Where the probing for an offset comes by after `k` steps. -/
def Builder.probed (b : Builder) (offset : UInt32) (k : Nat) : Nat :=
  ((hash offset).toNat % b.capacity + k) % b.capacity

/-- Probing for an offset, one comes by this entry, and before it only by entries for other offsets. -/
def Builder.Meets (b : Builder) (offset : UInt32) (e : UInt32 × Bytes) : Prop :=
  ∃ k < b.capacity, b.slots[b.probed offset k]? = some (some e) ∧
    ∀ k' < k, ∃ e', b.slots[b.probed offset k']? = some (some e') ∧ e'.1 ≠ offset

end Probing

/-! ### Entering offsets -/

/-- The taken slots hold `entries`, which were entered in this order. -/
structure Builder.Holds (entries : List (UInt32 × Bytes)) (b : Builder) : Prop where
  slots : b.slots.toList.reduceOption.Perm entries
  filled : b.filled = entries.length
  fit : ∀ e ∈ entries, e.1.toNat < 256 ^ b.offsetWidth ∧ e.2.size = b.bitmapWidth
  first : ∀ offset e, entries.find? (·.1 = offset) = some e → b.Meets offset e

section Entering
variable {b : Builder} {entries : List (UInt32 × Bytes)}

theorem reduceOption_set_perm {α : Type} {slots : List (Option α)} {i : Nat} {a : α} (h : slots[i]? = some none) :
    (slots.set i (some a)).reduceOption.Perm (a :: slots.reduceOption) := by
  induction slots generalizing i with
  | nil => simp at h
  | cons slot slots ih =>
    cases i with
    | zero =>
      obtain rfl : slot = none := by simpa using h
      simp
    | succ i =>
      rw [List.getElem?_cons_succ] at h
      cases slot with
      | none => simpa using ih h
      | some e => simpa using ((ih h).cons e).trans (List.Perm.swap a e _)

theorem Builder.Holds.exists_free (h : b.Holds entries) (hroom : entries.length < b.capacity) :
    ∃ j < b.capacity, b.slots[j]? = some none := by
  have hnone : none ∈ b.slots.toList := by
    rw [← List.reduceOption_length_lt_iff, h.slots.length_eq]
    exact hroom
  obtain ⟨j, hj⟩ := List.mem_iff_getElem?.mp hnone
  rw [Array.getElem?_toList] at hj
  exact ⟨j, (Array.getElem?_eq_some_iff.mp hj).1, hj⟩

/-- One builder has the widths and the number of slots of another. -/
structure Builder.SameShape (b b' : Builder) : Prop where
  offsetWidth : b'.offsetWidth = b.offsetWidth
  bitmapWidth : b'.bitmapWidth = b.bitmapWidth
  capacity : b'.capacity = b.capacity

theorem Builder.SameShape.trans {b b' b'' : Builder} (h : b.SameShape b') (h' : b'.SameShape b'') : b.SameShape b'' where
  offsetWidth := h'.offsetWidth.trans h.offsetWidth
  bitmapWidth := h'.bitmapWidth.trans h.bitmapWidth
  capacity := h'.capacity.trans h.capacity

theorem Builder.Holds.mem (h : b.Holds entries) {i : Nat} {e : UInt32 × Bytes} (he : b.slots[i]? = some (some e)) :
    e ∈ entries := by
  rw [← h.slots.mem_iff, List.reduceOption_mem_iff]
  rw [← Array.getElem?_toList] at he
  exact List.mem_of_getElem? he

/-- The builder with one more entry, in a slot that was free. -/
def Builder.entered (b : Builder) (i : Nat) (e : UInt32 × Bytes) : Builder :=
  { b with slots := b.slots.setIfInBounds i (some e), filled := b.filled + 1 }

section Entered
variable {i : Nat} {e : UInt32 × Bytes} {offset : UInt32}

theorem capacity_entered : (b.entered i e).capacity = b.capacity := Array.size_setIfInBounds

theorem probed_entered (k : Nat) : (b.entered i e).probed offset k = b.probed offset k := by
  rw [Builder.probed, capacity_entered, Builder.probed]

/-- A taken slot stays as it is. -/
theorem slots_entered_of_taken (hfree : b.slots[i]? = some none) {j : Nat} {e' : UInt32 × Bytes}
    (htaken : b.slots[j]? = some (some e')) : (b.entered i e).slots[j]? = some (some e') := by
  have hne : i ≠ j := by
    rintro rfl
    rw [hfree] at htaken
    cases htaken
  rw [Builder.entered, Array.getElem?_setIfInBounds_ne hne, htaken]

theorem slots_entered_self (hfree : b.slots[i]? = some none) : (b.entered i e).slots[i]? = some (some e) := by
  rw [Builder.entered, Array.getElem?_setIfInBounds_self_of_lt (Array.getElem?_eq_some_iff.mp hfree).1]

theorem Builder.Meets.entered {e' : UInt32 × Bytes} (h : b.Meets offset e') (hfree : b.slots[i]? = some none) :
    (b.entered i e).Meets offset e' := by
  obtain ⟨k, hk, hslot, hbefore⟩ := h
  refine ⟨k, Nat.lt_of_lt_of_eq hk capacity_entered.symm, ?_, fun k' hk' => ?_⟩
  · rw [probed_entered]
    exact slots_entered_of_taken hfree hslot
  · obtain ⟨x, hx, hne⟩ := hbefore k' hk'
    rw [probed_entered]
    exact ⟨x, slots_entered_of_taken hfree hx, hne⟩

end Entered

/-- An entry goes to the first free slot on the way of its offset, so that the entries for the offset stand there in
    the order in which they were entered. -/
theorem Builder.Holds.entered (h : b.Holds entries) {offset : UInt32} {bitmap : Bytes}
    (ho : offset.toNat < 256 ^ b.offsetWidth) (hb : bitmap.size = b.bitmapWidth) {k : Nat} (hk : k < b.capacity)
    (hfree : b.slots[b.probed offset k]? = some none)
    (hbefore : ∀ k' < k, ∃ e, b.slots[b.probed offset k']? = some (some e)) :
    (b.entered (b.probed offset k) (offset, bitmap)).Holds (entries ++ [(offset, bitmap)]) where
  slots := by
    rw [Builder.entered, Array.toList_setIfInBounds]
    refine (reduceOption_set_perm ?_).trans ((h.slots.cons _).trans (List.perm_append_singleton _ _).symm)
    rwa [Array.getElem?_toList]
  filled := by rw [List.length_append, List.length_singleton, ← h.filled, Builder.entered]
  fit := fun e he => by
    rcases List.mem_append.mp he with he | he
    · exact h.fit e he
    · cases List.mem_singleton.mp he
      exact ⟨ho, hb⟩
  first := fun o e he => by
    rw [List.find?_append] at he
    cases hfirst : entries.find? (·.1 = o) with
    | some e' =>
      rw [hfirst] at he
      cases he
      exact (h.first o e hfirst).entered hfree
    | none =>
      -- No entry for the offset was there, so none stands before the slot that the new one takes.
      rw [hfirst, Option.none_or, List.find?_singleton] at he
      obtain ⟨rfl, rfl⟩ : offset = o ∧ (offset, bitmap) = e := by simpa using he
      refine ⟨k, Nat.lt_of_lt_of_eq hk capacity_entered.symm, ?_, fun k' hk' => ?_⟩
      · rw [probed_entered]
        exact slots_entered_self hfree
      · obtain ⟨x, hx⟩ := hbefore k' hk'
        rw [probed_entered]
        refine ⟨x, slots_entered_of_taken hfree hx, fun heq => ?_⟩
        have hnot := List.find?_eq_none.mp hfirst x (h.mem hx)
        exact hnot (decide_eq_true heq)

theorem Builder.Holds.add (h : b.Holds entries) (hroom : entries.length < b.capacity) {offset : UInt32} {bitmap : Bytes}
    (ho : offset.toNat < 256 ^ b.offsetWidth) (hb : bitmap.size = b.bitmapWidth) :
    ∃ b', b.add offset bitmap = .ok b' ∧ b'.Holds (entries ++ [(offset, bitmap)]) ∧ b.SameShape b' := by
  obtain ⟨j, hj, hfree⟩ := h.exists_free hroom
  have hstart := Nat.mod_lt (hash offset).toNat (Nat.zero_lt_of_lt hj)
  obtain ⟨k, hk, rfl⟩ := exists_probe hstart hj
  obtain ⟨k', hk', hrun, hslot, hbefore⟩ := freeSlot_of_free hstart hk hfree
  have hfull : ¬b.capacity ≤ b.filled := by rw [h.filled]; omega
  refine ⟨b.entered (b.probed offset k') (offset, bitmap), ?_, h.entered ho hb hk' hslot hbefore, rfl, rfl,
    capacity_entered⟩
  simp [Builder.add, Builder.entered, Builder.probed, hfull, hb, hrun, ho]

/-- The entry of a safepoint: its native offset and the verifier's bitmap for its source PC. -/
def EntryFor (live : VerifierMap) (safepoint : MappingEntry) (e : UInt32 × Bytes) : Prop :=
  e.1 = safepoint.nativeOffset ∧ live.find? safepoint.dexPc = .ok (some e.2)

/-- Safepoints are entered in their order, up to the first whose source PC the verifier does not know. -/
theorem addSafepoints_cases {known : UInt32 → Prop} {live : VerifierMap} (hlive : live.Knows known)
    {safepoints : List MappingEntry} (h : b.Holds entries) (hw : b.bitmapWidth = live.bitmapWidth)
    (hroom : entries.length + safepoints.length ≤ b.capacity)
    (ho : ∀ e ∈ safepoints, e.nativeOffset.toNat < 256 ^ b.offsetWidth) :
    (∃ e ∈ safepoints, ¬known e.dexPc ∧
      addSafepoints live safepoints b = .error (.refused (.missingReferenceBitmap e.dexPc))) ∨
    (∀ e ∈ safepoints, known e.dexPc) ∧ ∃ b' added, addSafepoints live safepoints b = .ok b' ∧ b.SameShape b' ∧
      List.Forall₂ (EntryFor live) safepoints added ∧ b'.Holds (entries ++ added) := by
  induction safepoints generalizing b entries with
  | nil => exact .inr ⟨by simp, b, [], rfl, ⟨rfl, rfl, rfl⟩, .nil, by rwa [List.append_nil]⟩
  | cons e safepoints ih =>
    by_cases hknown : known e.dexPc
    · obtain ⟨bitmap, hfind, hsize⟩ := hlive.found e.dexPc hknown
      rw [List.length_cons] at hroom
      obtain ⟨b₁, hadd, hb₁, hshape⟩ := h.add (by omega) (ho e List.mem_cons_self) (hsize.trans hw.symm)
      have hrun : addSafepoints live (e :: safepoints) b = addSafepoints live safepoints b₁ := by
        simp only [addSafepoints, hfind, hadd, Checked.ok_bind]
      -- There is a slot less, but also a safepoint less to enter.
      have hroom₁ : (entries ++ [(e.nativeOffset, bitmap)]).length + safepoints.length ≤ b₁.capacity := by
        rw [hshape.capacity, List.length_append, List.length_singleton]
        omega
      have ho₁ : ∀ e ∈ safepoints, e.nativeOffset.toNat < 256 ^ b₁.offsetWidth := fun e he => by
        rw [hshape.offsetWidth]
        exact ho e (List.mem_cons_of_mem _ he)
      rw [hrun]
      rcases ih hb₁ (hshape.bitmapWidth.trans hw) hroom₁ ho₁ with ⟨x, hx, herror⟩ | ⟨hall, b', added, hrest, hshape',
        hadded, hb'⟩
      · exact .inl ⟨x, List.mem_cons_of_mem _ hx, herror⟩
      · refine .inr ⟨List.forall_mem_cons.mpr ⟨hknown, hall⟩, b', (e.nativeOffset, bitmap) :: added, hrest,
          hshape.trans hshape', .cons ⟨rfl, hfind⟩ hadded, ?_⟩
        rwa [List.append_assoc, List.singleton_append] at hb'
    · refine .inl ⟨e, List.mem_cons_self, hknown, ?_⟩
      simp only [addSafepoints, hlive.missing e.dexPc hknown, Checked.ok_bind]
      rfl

end Entering

/-! ### Widths -/

theorem lt_pow_offsetWidthFor {offset greatest : UInt32} (h : offset ≤ greatest) :
    offset.toNat < 256 ^ offsetWidthFor greatest := by
  have hle : offset.toNat ≤ greatest.toNat := UInt32.le_iff_toNat_le.mp h
  rw [offsetWidthFor]
  split
  · rename_i hzero
    rw [hzero] at hle
    exact Nat.lt_of_le_of_lt hle (by decide)
  · calc offset.toNat
      _ ≤ greatest.toNat := hle
      _ < 2 ^ (greatest.toNat.log2 + 1) := Nat.lt_log2_self
      _ ≤ 2 ^ (8 * (greatest.toNat.log2 / 8 + 1)) := Nat.pow_le_pow_right (by decide) (by omega)
      _ = 256 ^ (greatest.toNat.log2 / 8 + 1) := by rw [Nat.pow_mul]

theorem offsetWidthFor_le (greatest : UInt32) : offsetWidthFor greatest ≤ 4 := by
  rw [offsetWidthFor]
  split
  · exact Nat.zero_le 4
  · rename_i hne
    have hlog : greatest.toNat.log2 < 32 := by
      rw [Nat.log2_lt fun h => hne (UInt32.toNat_inj.mp h)]
      exact greatest.toNat_lt
    omega

theorem le_foldl_max (safepoints : List MappingEntry) (start : UInt32) :
    start ≤ safepoints.foldl (fun greatest e => max greatest e.nativeOffset) start ∧
      ∀ e ∈ safepoints, e.nativeOffset ≤ safepoints.foldl (fun greatest e => max greatest e.nativeOffset) start := by
  induction safepoints generalizing start with
  | nil => simp
  | cons x safepoints ih =>
    obtain ⟨hstart, hrest⟩ := ih (max start x.nativeOffset)
    rw [UInt32.le_iff_toNat_le, toNat_max] at hstart
    simp only [List.foldl_cons, List.forall_mem_cons, UInt32.le_iff_toNat_le]
    exact ⟨by omega, by omega, fun e he => UInt32.le_iff_toNat_le.mp (hrest e he)⟩

/-! ### Reading a full table back -/

/-- Every slot is taken, and the header has room for the widths and the number of slots. -/
structure Builder.Full (slots : List (UInt32 × Bytes)) (b : Builder) : Prop where
  taken : b.slots.toList = slots.map some
  fit : ∀ e ∈ slots, e.1.toNat < 256 ^ b.offsetWidth ∧ e.2.size = b.bitmapWidth
  offsetWidth : b.offsetWidth ≤ 4
  bitmapWidth : b.bitmapWidth < 2 ^ 13
  length : slots.length < 2 ^ 16

theorem Builder.Holds.full {b : Builder} {entries : List (UInt32 × Bytes)} (h : b.Holds entries)
    (hall : entries.length = b.capacity) (ho : b.offsetWidth ≤ 4) (hb : b.bitmapWidth < 2 ^ 13)
    (hc : b.capacity < 2 ^ 16) : ∃ slots, b.Full slots := by
  have hsome : ∀ slot ∈ b.slots.toList, slot.isSome := by
    rw [← List.reduceOption_length_eq_iff, h.slots.length_eq, hall]
    rfl
  refine ⟨b.slots.toList.reduceOption, ?_, ?_, ho, hb, ?_⟩
  · generalize b.slots.toList = slots at hsome
    induction slots with
    | nil => rfl
    | cons slot slots ih =>
      obtain ⟨e, rfl⟩ := Option.isSome_iff_exists.mp (hsome slot List.mem_cons_self)
      rw [List.reduceOption_cons_of_some, List.map_cons, ← ih fun s hs => hsome s (List.mem_cons_of_mem _ hs)]
  · exact fun e he => h.fit e (h.slots.mem_iff.mp he)
  · rwa [h.slots.length_eq, hall]

section Reading
variable {b : Builder} {slots : List (UInt32 × Bytes)} {i : Nat} {e : UInt32 × Bytes}

/-- The map that a builder makes. -/
def Builder.map (b : Builder) : ReferenceMap := { data := b.table }

theorem Builder.Full.size (h : b.Full slots) : b.slots.size = slots.length := by
  rw [← Array.length_toList, h.taken, List.length_map]

theorem Builder.Full.slotBytes_length (h : b.Full slots) (he : e ∈ slots) :
    (b.slotBytes (some e)).length = b.offsetWidth + b.bitmapWidth := by
  rw [Builder.slotBytes, List.length_append, littleEndian_length, Array.length_toList, (h.fit e he).2]

theorem Builder.Full.table_eq (h : b.Full slots) :
    b.table = (b.header ++ slots.flatMap fun e => b.slotBytes (some e)).toArray := by
  rw [Builder.table, h.taken, List.flatMap_map]

theorem offsetWidth_map (h : b.Full slots) : b.map.offsetWidth = b.offsetWidth := by
  have ho := h.offsetWidth
  simp only [offsetWidth, Builder.map, headerByte, Builder.table, Builder.header, List.cons_append,
    Array.getD_eq_getD_getElem?, List.getElem?_toArray, List.getElem?_cons_zero, Option.getD_some, UInt8.toNat_ofNat',
    Nat.reducePow]
  omega

theorem bitmapWidth_map (h : b.Full slots) : b.map.bitmapWidth = b.bitmapWidth := by
  have ho := h.offsetWidth
  have hb := h.bitmapWidth
  simp only [bitmapWidth, Builder.map, headerByte, Builder.table, Builder.header, List.cons_append,
    Array.getD_eq_getD_getElem?, List.getElem?_toArray, List.getElem?_cons_zero, List.getElem?_cons_succ,
    Option.getD_some, UInt8.toNat_ofNat', Nat.reducePow]
  omega

theorem size_map (h : b.Full slots) : b.map.size = slots.length := by
  have hl := h.length
  rw [← h.size] at hl ⊢
  simp only [size, Builder.map, headerByte, Builder.table, Builder.header, Builder.capacity, List.cons_append,
    Array.getD_eq_getD_getElem?, List.getElem?_toArray, List.getElem?_cons_zero, List.getElem?_cons_succ,
    Option.getD_some, UInt8.toNat_ofNat', Nat.reducePow]
  omega

theorem entryWidth_map (h : b.Full slots) : b.map.entryWidth = b.offsetWidth + b.bitmapWidth := by
  rw [entryWidth, offsetWidth_map h, bitmapWidth_map h]

/-- A full table is accepted. -/
theorem ofBytes_table (h : b.Full slots) : ofBytes b.table = .ok b.map := by
  have hsize : b.table.size = referenceHeaderSize + b.map.size * b.map.entryWidth := by
    rw [size_map h, entryWidth_map h, h.table_eq]
    exact Bytes.size_records fun e he => h.slotBytes_length he
  have hheader : ¬b.table.size < referenceHeaderSize := by omega
  simp only [ofBytes, hheader, if_false]
  exact if_neg fun hne => hne hsize

theorem slot_map (h : b.Full slots) (he : slots[i]? = some e) : b.map.slot i = .ok (b.slotBytes (some e)).toArray := by
  rw [slot, entryWidth_map h, show b.map.data = b.table from rfl, h.table_eq]
  exact Bytes.slice_record (fun e he => h.slotBytes_length he) he

theorem offsetAt_map (h : b.Full slots) (he : slots[i]? = some e) : b.map.offsetAt i = .ok e.1 := by
  have hfit := (h.fit e (List.mem_of_getElem? he)).1
  have hslice : Bytes.slice (b.slotBytes (some e)).toArray 0 b.offsetWidth =
      .ok (littleEndian b.offsetWidth e.1.toNat).toArray :=
    Bytes.slice_middle [] _ _ rfl (littleEndian_length _ _).symm
  have hwords : (littleEndian b.offsetWidth e.1.toNat).toArray.size ≤ 4 := by
    rw [List.size_toArray, littleEndian_length]
    exact h.offsetWidth
  rw [offsetAt, slot_map h he, Checked.ok_bind, offsetWidth_map h, hslice, Checked.ok_bind, offsetOfBytes,
    decide_eq_true hwords, require_true, Checked.ok_bind, ofLittleEndian_littleEndian, Nat.mod_eq_of_lt hfit,
    UInt32.ofNat_toNat]
  rfl

theorem bitmapAt_map (h : b.Full slots) (he : slots[i]? = some e) : b.map.bitmapAt i = .ok e.2 := by
  rw [bitmapAt, slot_map h he, Checked.ok_bind, offsetWidth_map h, bitmapWidth_map h, Builder.slotBytes,
    ← List.append_nil (littleEndian _ _ ++ _)]
  exact Bytes.slice_middle _ _ [] (littleEndian_length _ _).symm (h.fit e (List.mem_of_getElem? he)).2.symm

/-- A search comes by slots for other offsets and answers with the bitmap in the first slot for its own. -/
theorem findFrom_map_of_first (h : b.Full slots) {offset : UInt32} {left k : Nat} (hi : i < slots.length) (hk : k < left)
    (he : slots[(i + k) % slots.length]? = some (offset, e.2))
    (hbefore : ∀ k' < k, ∃ e', slots[(i + k') % slots.length]? = some e' ∧ e'.1 ≠ offset) :
    b.map.findFrom offset left i = .ok (some e.2) := by
  induction left generalizing i k with
  | zero => exact absurd hk (Nat.not_lt_zero k)
  | succ left ih =>
    have hhere : (i + 0) % slots.length = i := Nat.mod_eq_of_lt hi
    cases k with
    | zero =>
      rw [hhere] at he
      rw [findFrom, offsetAt_map h he, Checked.ok_bind, if_pos rfl, bitmapAt_map h he]
      rfl
    | succ k =>
      -- The slot here is for another offset, so the search goes on as the probing did.
      obtain ⟨x, hx, hne⟩ := hbefore 0 (Nat.zero_lt_succ k)
      rw [hhere] at hx
      rw [findFrom, offsetAt_map h hx, Checked.ok_bind, if_neg hne, size_map h]
      rw [← probe_step] at he
      refine ih (Nat.mod_lt (i + 1) (Nat.zero_lt_of_lt hi)) (by omega) he fun k' hk' => ?_
      rw [probe_step]
      exact hbefore (k' + 1) (by omega)

theorem findFrom_map_of_absent (h : b.Full slots) {offset : UInt32} (habsent : ∀ e ∈ slots, e.1 ≠ offset) {left : Nat}
    (hi : i < slots.length) : b.map.findFrom offset left i = .ok none := by
  induction left generalizing i with
  | zero => rfl
  | succ left ih =>
    have he := List.getElem?_eq_getElem hi
    rw [findFrom, offsetAt_map h he, Checked.ok_bind, if_neg (habsent _ (List.getElem_mem hi)), size_map h]
    exact ih (Nat.mod_lt (i + 1) (Nat.zero_lt_of_lt hi))

theorem Builder.Full.getElem?_slots (h : b.Full slots) : b.slots[i]? = slots[i]?.map some := by
  rw [← Array.getElem?_toList, h.taken, List.getElem?_map]

theorem Builder.Full.taken_slot (h : b.Full slots) (he : b.slots[i]? = some (some e)) : slots[i]? = some e := by
  rw [h.getElem?_slots] at he
  obtain ⟨e', he', heq⟩ := Option.map_eq_some_iff.mp he
  rwa [← Option.some.inj heq]

/-- A search walks the slots as the probing does. -/
theorem Builder.Full.find?_of_meets (h : b.Full slots) {offset : UInt32} {bitmap : Bytes}
    (hmeets : b.Meets offset (offset, bitmap)) : b.map.find? offset = .ok (some bitmap) := by
  obtain ⟨k, hk, hslot, hbefore⟩ := hmeets
  have hcapacity : b.capacity = slots.length := h.size
  simp only [Builder.probed, hcapacity] at hk hslot hbefore
  rw [find?, size_map h]
  refine findFrom_map_of_first (e := (offset, bitmap)) h (Nat.mod_lt _ (Nat.zero_lt_of_lt hk)) hk (h.taken_slot hslot)
    fun k' hk' => ?_
  obtain ⟨x, hx, hne⟩ := hbefore k' hk'
  exact ⟨x, h.taken_slot hx, hne⟩

/-- A search answers with the bitmap of the entry for its offset that was entered first, if there is one. -/
theorem find?_map (h : b.Full slots) {entries : List (UInt32 × Bytes)} (hholds : b.Holds entries) (offset : UInt32) :
    b.map.find? offset = .ok ((entries.find? (·.1 = offset)).map (·.2)) := by
  cases hfirst : entries.find? (·.1 = offset) with
  | some e =>
    obtain rfl : e.1 = offset := by simpa using List.find?_some hfirst
    exact h.find?_of_meets (hholds.first _ e hfirst)
  | none =>
    have habsent : ∀ e ∈ slots, e.1 ≠ offset := by
      intro e he heq
      obtain ⟨j, hj⟩ := List.mem_iff_getElem?.mp he
      have hslot : b.slots[j]? = some (some e) := by rw [h.getElem?_slots, hj, Option.map_some]
      exact List.find?_eq_none.mp hfirst e (hholds.mem hslot) (decide_eq_true heq)
    rw [find?, size_map h]
    rcases Nat.eq_zero_or_pos slots.length with hempty | hpos
    · rw [hempty]
      rfl
    · exact findFrom_map_of_absent h habsent (Nat.mod_lt _ hpos)

end Reading

/-! ### The map of a mapping table -/

/-- A search answers with the verifier's bitmap for the source PC of the first safepoint at its offset, and for no other
    offset. -/
def ServesFirst (live : VerifierMap) (safepoints : List MappingEntry) (m : ReferenceMap) : Prop :=
  ∀ offset, m.find? offset =
    match safepoints.find? (·.nativeOffset = offset) with
    | some e => live.find? e.dexPc
    | none => .ok none

theorem find?_entries {live : VerifierMap} {safepoints : List MappingEntry} {added : List (UInt32 × Bytes)}
    (h : List.Forall₂ (EntryFor live) safepoints added) (offset : UInt32) :
    .ok ((added.find? (·.1 = offset)).map (·.2)) =
      match safepoints.find? (·.nativeOffset = offset) with
      | some e => live.find? e.dexPc
      | none => .ok none := by
  induction h with
  | nil => rfl
  | @cons s e safepoints added hse _ ih =>
    obtain ⟨hoffset, hfind⟩ := hse
    rw [List.find?_cons, List.find?_cons, hoffset]
    by_cases heq : s.nativeOffset = offset
    · simp only [heq, decide_true, Option.map_some]
      exact hfind.symm
    · simp only [heq, decide_false]
      exact ih

/-- A search answers for the native offsets of safepoints, each with the verifier's bitmap for its source PC, and for no
    other offset. -/
def Serves (live : VerifierMap) (safepoints : List MappingEntry) (m : ReferenceMap) : Prop :=
  ∀ offset, ∃ found, m.find? offset = .ok found ∧
    (∀ bitmap, found = some bitmap → ∃ e ∈ safepoints, e.nativeOffset = offset ∧ live.find? e.dexPc = .ok (some bitmap)) ∧
    (found = none → ∀ e ∈ safepoints, e.nativeOffset ≠ offset)

theorem ServesFirst.serves {known : UInt32 → Prop} {live : VerifierMap} (hlive : live.Knows known)
    {safepoints : List MappingEntry} (hknown : ∀ e ∈ safepoints, known e.dexPc) {m : ReferenceMap}
    (h : m.ServesFirst live safepoints) : m.Serves live safepoints := by
  intro offset
  rw [h offset]
  cases hfirst : safepoints.find? (·.nativeOffset = offset) with
  | some e =>
    have hmem := List.mem_of_find?_eq_some hfirst
    obtain ⟨bitmap, hfind, -⟩ := hlive.found e.dexPc (hknown e hmem)
    refine ⟨some bitmap, hfind, fun bitmap' hbitmap => ?_, nofun⟩
    cases hbitmap
    exact ⟨e, hmem, by simpa using List.find?_some hfirst, hfind⟩
  | none => exact ⟨none, rfl, nofun, fun _ e he heq => List.find?_eq_none.mp hfirst e he (decide_eq_true heq)⟩

/-- A table of free slots. -/
def Builder.free (capacity : Nat) (greatest : UInt32) (bitmapWidth : Nat) : Builder where
  offsetWidth := offsetWidthFor greatest
  bitmapWidth := bitmapWidth
  slots := .replicate capacity none

section Free
variable {capacity bitmapWidth : Nat} {greatest : UInt32}

theorem requireBelow_of_lt {what : Quantity} {value limit : Nat} (h : value < limit) :
    requireBelow what value limit = .ok () := if_neg (Nat.not_le.mpr h)

/-- Only the number of slots may be too much for the header. -/
theorem new_eq (hb : bitmapWidth < 2 ^ 13) :
    Builder.new capacity greatest bitmapWidth =
      if 2 ^ 16 ≤ capacity then .error (.refused (.limitExceeded .referenceEntries capacity (2 ^ 16)))
      else .ok (.free capacity greatest bitmapWidth) := by
  have ho : offsetWidthFor greatest < 2 ^ 3 := Nat.lt_of_le_of_lt (offsetWidthFor_le greatest) (by decide)
  rw [Builder.new, requireBelow_of_lt ho, Checked.ok_bind, requireBelow_of_lt hb, Checked.ok_bind, requireBelow]
  split <;> rfl

theorem capacity_free : (Builder.free capacity greatest bitmapWidth).capacity = capacity := Array.size_replicate

theorem holds_free : (Builder.free capacity greatest bitmapWidth).Holds [] where
  slots := by rw [Builder.free, Array.toList_replicate, List.reduceOption_replicate_none]
  filled := rfl
  fit := nofun
  first := nofun

end Free

/-- How making the map of a mapping table ends, for a verifier map that knows some source PCs: the table is malformed, or
    has more safepoints than the header can count, or one with a source PC that is not known; or there is a map that
    serves its safepoints. -/
inductive Outcome (known : UInt32 → Prop) (mapping : Bytes) (live : VerifierMap) : Checked MappingTable.Built → Prop
  | malformed {defect : Malformed} : MappingTable.decode mapping = .error (.refused (.malformed defect)) →
      Outcome known mapping live (.error (.refused (.malformed defect)))
  | crowded {table : MappingTable} : MappingTable.decode mapping = .ok table → 2 ^ 16 ≤ table.pcToDex.length →
      Outcome known mapping live (.error (.refused (.limitExceeded .referenceEntries table.pcToDex.length (2 ^ 16))))
  | unknown {table : MappingTable} {e : MappingEntry} : MappingTable.decode mapping = .ok table → e ∈ table.pcToDex →
      ¬known e.dexPc → Outcome known mapping live (.error (.refused (.missingReferenceBitmap e.dexPc)))
  | made {table : MappingTable} {built : MappingTable.Built} {m : ReferenceMap} :
      MappingTable.decode mapping = .ok table → table.pcToDex.length < 2 ^ 16 →
      (∀ e ∈ table.pcToDex, known e.dexPc) → ofBytes built.table = .ok m → m.ServesFirst live table.pcToDex →
      Outcome known mapping live (.ok built)

/-- Entering safepoints into a table with a slot for each fills it, unless the verifier does not know a source PC. -/
theorem addSafepoints_free {known : UInt32 → Prop} {live : VerifierMap} (hlive : live.Knows known)
    (hw : live.bitmapWidth < 2 ^ 13) {safepoints : List MappingEntry} (hlen : safepoints.length < 2 ^ 16) :
    (∃ e ∈ safepoints, ¬known e.dexPc ∧
      addSafepoints live safepoints (.free safepoints.length (greatestOffset safepoints) live.bitmapWidth) =
        .error (.refused (.missingReferenceBitmap e.dexPc))) ∨
    (∀ e ∈ safepoints, known e.dexPc) ∧ ∃ b slots added,
      addSafepoints live safepoints (.free safepoints.length (greatestOffset safepoints) live.bitmapWidth) = .ok b ∧
      b.Full slots ∧ b.Holds added ∧ List.Forall₂ (EntryFor live) safepoints added := by
  have hroom : ([] : List (UInt32 × Bytes)).length + safepoints.length ≤
      (Builder.free safepoints.length (greatestOffset safepoints) live.bitmapWidth).capacity :=
    Nat.le_of_eq (by rw [List.length_nil, Nat.zero_add, capacity_free])
  have hoffsets : ∀ e ∈ safepoints, e.nativeOffset.toNat < 256 ^ offsetWidthFor (greatestOffset safepoints) :=
    fun e he => lt_pow_offsetWidthFor ((le_foldl_max safepoints 0).2 e he)
  rcases addSafepoints_cases (b := .free _ _ live.bitmapWidth) hlive holds_free rfl hroom hoffsets with
    hunknown | ⟨hknown, b, added, hrun, hshape, hadded, hholds⟩
  · exact .inl hunknown
  · have hcapacity : b.capacity = safepoints.length := hshape.capacity.trans capacity_free
    rw [List.nil_append] at hholds
    -- As many entries as slots, so none is free.
    obtain ⟨slots, hfull⟩ := hholds.full (by rw [← hadded.length_eq, hcapacity])
      (hshape.offsetWidth ▸ offsetWidthFor_le _) (hshape.bitmapWidth ▸ hw) (hcapacity ▸ hlen)
    exact .inr ⟨hknown, b, slots, added, hrun, hfull, hholds, hadded⟩

theorem create_outcome {known : UInt32 → Prop} {live : VerifierMap} (hlive : live.Knows known)
    (hw : live.bitmapWidth < 2 ^ 13) (mapping : Bytes) : Outcome known mapping live (create mapping live) := by
  cases htable : MappingTable.ofBytes mapping.toList with
  | error defect =>
    have hdecode : MappingTable.decode mapping = .error (.refused (.malformed defect)) := by
      rw [MappingTable.decode, htable, Checked.ofBytes]
    rw [create, hdecode]
    exact .malformed hdecode
  | ok table =>
    have hdecode : MappingTable.decode mapping = .ok table := by rw [MappingTable.decode, htable, Checked.ofBytes]
    simp only [create, hdecode, Checked.ok_bind, new_eq hw]
    rcases Nat.lt_or_ge table.pcToDex.length (2 ^ 16) with hlen | hmany
    · rw [if_neg (Nat.not_le.mpr hlen), Checked.ok_bind]
      rcases addSafepoints_free hlive hw hlen with ⟨e, he, hunknown, herror⟩ | ⟨hknown, b, slots, added, hrun, hfull,
        hholds, hadded⟩
      · rw [herror]
        exact .unknown hdecode he hunknown
      · rw [hrun]
        refine .made hdecode hlen hknown (ofBytes_table hfull) fun offset => ?_
        rw [find?_map hfull hholds]
        exact find?_entries hadded offset
    · rw [if_pos hmany]
      exact .crowded hdecode hmany

namespace Outcome
variable {known : UInt32 → Prop} {mapping : Bytes} {live : VerifierMap} {r : Checked MappingTable.Built}

theorem exists_ok_iff (h : Outcome known mapping live r) :
    (∃ built, r = .ok built) ↔ ∃ table, MappingTable.decode mapping = .ok table ∧ table.pcToDex.length < 2 ^ 16 ∧
      ∀ e ∈ table.pcToDex, known e.dexPc := by
  cases h with
  | malformed hdecode => simp [hdecode]
  | crowded hdecode hmany =>
    simp only [hdecode, reduceCtorEq, exists_false, Except.ok.injEq, exists_eq_left', false_iff]
    exact fun h => absurd h.1 (Nat.not_lt.mpr hmany)
  | unknown hdecode he hunknown =>
    simp only [hdecode, reduceCtorEq, exists_false, Except.ok.injEq, exists_eq_left', false_iff]
    exact fun h => hunknown (h.2 _ he)
  | made hdecode hlen hknown => exact ⟨fun _ => ⟨_, hdecode, hlen, hknown⟩, fun _ => ⟨_, rfl⟩⟩

/-- The table may be refused, but there is a slot for each safepoint, and all bitmaps have the width of the map. -/
theorem of_error {fault : Fault} (h : Outcome known mapping live (.error fault)) : fault ≠ .trap ∧
    (∀ capacity, fault ≠ .refused (.referenceMapFull capacity)) ∧
      ∀ expected actual, fault ≠ .refused (.bitmapWidthMismatch expected actual) := by
  cases h <;> simp

theorem serves {built : MappingTable.Built} {table : MappingTable} (h : Outcome known mapping live (.ok built))
    (htable : MappingTable.decode mapping = .ok table) :
    (∀ e ∈ table.pcToDex, known e.dexPc) ∧ ∃ m, ofBytes built.table = .ok m ∧ m.ServesFirst live table.pcToDex := by
  cases h with
  | made hdecode _ hknown hm hserves =>
    rw [htable] at hdecode
    cases hdecode
    exact ⟨hknown, _, hm, hserves⟩

end Outcome

/-- The map of a mapping table exists exactly if the header can count its safepoints and the verifier knows their source
    PCs. -/
theorem create_decides {mapping : Bytes} {table : MappingTable} (hmapping : MappingTable.decode mapping = .ok table)
    {sets : List ReferenceSet} {registers : Nat} {live : VerifierMap} (hlive : live.Answers sets registers)
    (hregisters : registers ≤ 65528) :
    Checked.Decides (table.pcToDex.length < 2 ^ 16 ∧ ∀ e ∈ table.pcToDex, ∃ set ∈ sets, set.dexPc = e.dexPc)
      (fun built => ∃ m, ofBytes built.table = .ok m ∧ m.Serves live table.pcToDex) (create mapping live) := by
  have hw : live.bitmapWidth < 2 ^ 13 := by rw [hlive.width]; omega
  have houtcome := create_outcome hlive.knows hw mapping
  have hiff := houtcome.exists_ok_iff
  simp only [hmapping, Except.ok.injEq, exists_eq_left'] at hiff
  match hcreate : create mapping live with
  | .ok built =>
    obtain ⟨hknown, m, hm, hserves⟩ := (hcreate ▸ houtcome).serves hmapping
    exact ⟨hiff.mp ⟨built, hcreate⟩, m, hm, hserves.serves hlive.knows hknown⟩
  | .error (.refused e) =>
    intro hp
    obtain ⟨built, hbuilt⟩ := hiff.mpr hp
    rw [hcreate] at hbuilt
    cases hbuilt
  | .error .trap => exact (hcreate ▸ houtcome).of_error.1 rfl

end MethodAssembler.ReferenceMap
