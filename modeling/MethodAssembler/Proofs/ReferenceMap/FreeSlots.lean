import Mathlib.Data.List.Infix
import MethodAssembler.Proofs.Calls
import MethodAssembler.Proofs.ReferenceMap.Readable

/-! # Tables with free slots

A table can be written before all of its slots are taken. The bytes of a free slot are zeros, so to a reader it holds the
offset 0 and no references, and the table is one without free slots (`Builder.completed`). A search for an offset that was
entered comes by no free slot. A search for another offset finds nothing, unless it is for 0 and a slot is free. -/

namespace MethodAssembler.ReferenceMap

/-! ### What a reader sees -/

/-- What a free slot looks like. -/
def Builder.vacant (b : Builder) : UInt32 × Bytes := (0, .replicate b.bitmapWidth 0)

/-- The table as a reader sees it. -/
def Builder.completed (b : Builder) : Builder := { b with slots := b.slots.map fun slot => some (slot.getD b.vacant) }

section Completed
variable {b : Builder} {entries : List (UInt32 × Bytes)}

theorem littleEndian_zero (count : Nat) : littleEndian count 0 = List.replicate count 0 := by
  induction count with
  | zero => rfl
  | succ count ih =>
    rw [littleEndian, Nat.zero_div, ih, List.replicate_succ]
    rfl

theorem slotBytes_vacant : b.slotBytes (some b.vacant) = b.slotBytes none := by
  simp only [Builder.slotBytes, Builder.vacant, Builder.entryWidth]
  rw [show (0 : UInt32).toNat = 0 from rfl, littleEndian_zero, Array.toList_replicate, List.replicate_append_replicate]

theorem capacity_completed : b.completed.capacity = b.capacity := Array.size_map

theorem getElem?_completed (i : Nat) :
    b.completed.slots[i]? = b.slots[i]?.map fun slot => some (slot.getD b.vacant) := Array.getElem?_map

theorem map_completed : b.completed.map = b.map := by
  have hheader : b.completed.header = b.header := by
    rw [Builder.header, Builder.header, capacity_completed]
    rfl
  have hslots : b.completed.slots.toList.flatMap b.slotBytes = b.slots.toList.flatMap b.slotBytes := by
    rw [Builder.completed, Array.toList_map, List.flatMap_map]
    congr 1
    funext slot
    cases slot with
    | none => exact slotBytes_vacant
    | some e => rfl
  have htable : b.completed.table = b.table := by
    rw [Builder.table, hheader, Builder.table, ← hslots]
    rfl
  rw [Builder.map, htable, Builder.map]

/-- The header has room for the widths and the number of slots of a table. -/
structure Builder.Fits (b : Builder) : Prop where
  offsetWidth : b.offsetWidth ≤ 4
  bitmapWidth : b.bitmapWidth < 2 ^ 13
  capacity : b.capacity < 2 ^ 16

theorem Builder.Holds.completed (h : b.Holds entries) (hfits : b.Fits) :
    b.completed.Full (b.slots.toList.map (·.getD b.vacant)) where
  taken := by rw [Builder.completed, Array.toList_map, List.map_map, Function.comp_def]
  fit := by
    intro e he
    obtain ⟨slot, hslot, rfl⟩ := List.mem_map.mp he
    cases slot with
    | none => exact ⟨Nat.pow_pos (by decide), Array.size_replicate⟩
    | some e =>
      obtain ⟨i, hi⟩ := List.mem_iff_getElem?.mp hslot
      rw [Array.getElem?_toList] at hi
      exact h.fit e (h.mem hi)
  offsetWidth := hfits.offsetWidth
  bitmapWidth := hfits.bitmapWidth
  length := by
    rw [List.length_map, Array.length_toList]
    exact hfits.capacity

theorem Builder.Meets.completed {offset : UInt32} {e : UInt32 × Bytes} (h : b.Meets offset e) :
    b.completed.Meets offset e := by
  have htaken : ∀ {j : Nat} {e}, b.slots[j]? = some (some e) → b.completed.slots[j]? = some (some e) := by
    intro j e hj
    rw [getElem?_completed, hj]
    rfl
  obtain ⟨k, hk, hslot, hbefore⟩ := h
  simp only [Builder.Meets, Builder.probed, capacity_completed]
  refine ⟨k, hk, htaken hslot, fun k' hk' => ?_⟩
  obtain ⟨x, hx, hne⟩ := hbefore k' hk'
  exact ⟨x, htaken hx, hne⟩

end Completed

/-! ### Searching -/

/-- A search answers for entries that were entered in this order: with the bitmap of the first one for its offset, and with
    nothing if there is none and the offset does not look like a free slot. -/
structure Finds (capacity : Nat) (entries : List (UInt32 × Bytes)) (m : ReferenceMap) : Prop where
  first : ∀ offset e, entries.find? (·.1 = offset) = some e → m.find? offset = .ok (some e.2)
  absent : ∀ offset, (∀ e ∈ entries, e.1 ≠ offset) → entries.length = capacity ∨ offset ≠ 0 → m.find? offset = .ok none
  vacant : (∀ e ∈ entries, e.1 ≠ 0) → entries.length < capacity → m.find? 0 = .ok (some (.replicate m.bitmapWidth 0))

section Searching
variable {b : Builder} {entries : List (UInt32 × Bytes)} {i : Nat} {slot : Option (UInt32 × Bytes)}

theorem Builder.Holds.read (h : b.Holds entries) (hfits : b.Fits) (hslot : b.slots[i]? = some slot) :
    b.map.offsetAt i = .ok (slot.getD b.vacant).1 ∧ b.map.bitmapAt i = .ok (slot.getD b.vacant).2 := by
  have hfull := h.completed hfits
  have hi : (b.slots.toList.map (·.getD b.vacant))[i]? = some (slot.getD b.vacant) := by
    rw [List.getElem?_map, Array.getElem?_toList, hslot, Option.map_some]
  rw [← map_completed]
  exact ⟨offsetAt_map hfull hi, bitmapAt_map hfull hi⟩

/-- A table without room has no free slot. -/
theorem Builder.Holds.room (h : b.Holds entries) (hfree : b.slots[i]? = some none) : entries.length < b.capacity := by
  rw [← h.slots.length_eq]
  refine List.reduceOption_length_lt_iff.mpr (List.mem_iff_getElem?.mpr ⟨i, ?_⟩)
  rw [Array.getElem?_toList, hfree]

/-- A slot for an offset that was not entered is free, and the offset is 0. -/
theorem Builder.Holds.free_of_absent (h : b.Holds entries) (hfits : b.Fits) {offset : UInt32}
    (habsent : ∀ e ∈ entries, e.1 ≠ offset) (hi : i < b.capacity) (ho : b.map.offsetAt i = .ok offset) :
    b.slots[i]? = some none ∧ offset = 0 := by
  have hslot : b.slots[i]? = some b.slots[i] := Array.getElem?_eq_getElem hi
  obtain ⟨hread, -⟩ := h.read hfits hslot
  rw [ho] at hread
  have hoffset := Except.ok.inj hread
  cases hs : b.slots[i] with
  | none =>
    rw [hs] at hslot hoffset
    exact ⟨hslot, hoffset⟩
  | some e =>
    rw [hs] at hslot hoffset
    exact absurd hoffset.symm (habsent e (h.mem hslot))

theorem Builder.Holds.size_map (h : b.Holds entries) (hfits : b.Fits) : b.map.size = b.capacity := by
  rw [← map_completed, ReferenceMap.size_map (h.completed hfits), List.length_map, Array.length_toList]
  rfl

theorem Builder.Holds.ofBytes_table (h : b.Holds entries) (hfits : b.Fits) :
    ofBytes b.table = .ok b.map ∧ b.map.offsetWidth = b.offsetWidth ∧ b.map.bitmapWidth = b.bitmapWidth ∧
      b.map.size = b.capacity := by
  have hfull := h.completed hfits
  have hbytes := ReferenceMap.ofBytes_table hfull
  have hoffset := offsetWidth_map hfull
  have hbitmap := bitmapWidth_map hfull
  rw [map_completed] at hbytes hoffset hbitmap
  rw [show b.completed.table = b.table from congrArg ReferenceMap.data map_completed] at hbytes
  exact ⟨hbytes, hoffset, hbitmap, h.size_map hfits⟩

theorem Builder.Holds.finds (h : b.Holds entries) (hfits : b.Fits) : b.map.Finds b.capacity entries := by
  obtain ⟨hbytes, hwidth, hbitmapWidth, hsize⟩ := h.ofBytes_table hfits
  have hsearch := find?_of_narrow (sized_of_ofBytes hbytes) (hwidth ▸ hfits.offsetWidth)
  rw [hsize] at hsearch
  refine ⟨fun offset e hfirst => ?_, fun offset habsent hnot => ?_, fun habsent hroom => ?_⟩
  · obtain rfl : e.1 = offset := by simpa using List.find?_some hfirst
    rw [← map_completed]
    exact (h.completed hfits).find?_of_meets (h.first _ e hfirst).completed
  · -- A slot that answers for an absent offset is free, and reads as 0.
    rcases hsearch offset with ⟨i, _, hi, ho, -, -⟩ | ⟨hnone, -⟩
    · obtain ⟨hfree, hzero⟩ := h.free_of_absent hfits habsent hi ho
      have hroom := h.room hfree
      rcases hnot with hfull | hne
      · omega
      · exact absurd hzero hne
    · exact hnone
  · rcases hsearch 0 with ⟨i, bitmap, hi, ho, hb, hfind⟩ | ⟨-, hmissed⟩
    · obtain ⟨hfree, -⟩ := h.free_of_absent hfits habsent hi ho
      rw [(h.read hfits hfree).2] at hb
      rw [hfind, ← Except.ok.inj hb, hbitmapWidth]
      rfl
    · obtain ⟨j, hj, hfree⟩ := h.exists_free hroom
      exact absurd (h.read hfits hfree).1 (hmissed j hj)

end Searching

/-! ### Calls -/

/-- One call. -/
def Builder.call (b : Builder) (c : UInt32 × Bytes) : Checked Builder := b.add c.1 c.2

/-- The calls that are not refused: those with a bitmap of the right width, as long as there is a slot for them. -/
def admitted (capacity width : Nat) (calls : List (UInt32 × Bytes)) : List (UInt32 × Bytes) :=
  (calls.filter (·.2.size = width)).take capacity

/-- The reply to a call behind others. -/
def reply (capacity width : Nat) (before : List (UInt32 × Bytes)) (c : UInt32 × Bytes) : Except Error Unit :=
  if (admitted capacity width before).length = capacity then .error (.referenceMapFull capacity)
  else if c.2.size ≠ width then .error (.bitmapWidthMismatch width c.2.size)
  else .ok ()

section Calls
variable {capacity width : Nat} {before calls : List (UInt32 × Bytes)} {c : UInt32 × Bytes}

theorem length_admitted_le : (admitted capacity width calls).length ≤ capacity := List.length_take_le _ _

theorem admitted_of_full (h : (admitted capacity width before).length = capacity) :
    admitted capacity width (before ++ [c]) = admitted capacity width before := by
  rw [admitted, List.length_take] at h
  rw [admitted, List.filter_append, List.take_append_of_le_length (by omega), admitted]

theorem admitted_of_misfit (h : c.2.size ≠ width) :
    admitted capacity width (before ++ [c]) = admitted capacity width before := by
  rw [admitted, List.filter_append, List.filter_singleton, decide_eq_false h, admitted]
  simp

theorem admitted_of_room (h : (admitted capacity width before).length ≠ capacity) (hc : c.2.size = width) :
    admitted capacity width (before ++ [c]) = admitted capacity width before ++ [c] := by
  rw [admitted, List.length_take] at h
  have hle : (before.filter (·.2.size = width)).length < capacity := by omega
  rw [admitted, List.filter_append, List.filter_singleton, decide_eq_true hc, admitted,
    List.take_of_length_le (Nat.le_of_lt hle), List.take_of_length_le]
  · rfl
  · simpa using Nat.succ_le_of_lt hle

/-- What was admitted stays so, whatever calls follow. -/
theorem admitted_mono {made : List (UInt32 × Bytes)} (h : made <+: calls) :
    admitted capacity width made <+: admitted capacity width calls := List.IsPrefix.take (h.filter _) capacity

theorem admitted_of_le (hlen : calls.length ≤ capacity) (hw : ∀ c ∈ calls, c.2.size = width) :
    admitted capacity width calls = calls := by
  rw [admitted, List.filter_eq_self.mpr fun c hc => decide_eq_true (hw c hc), List.take_of_length_le hlen]

/-- What calls on `b₀` lead to: the builder that the admitted ones lead to alone, which holds them. -/
structure Builder.Admits (b₀ : Builder) (calls : List (UInt32 × Bytes)) (b : Builder) : Prop where
  alone : (admitted b₀.capacity b₀.bitmapWidth calls).foldlM Builder.call b₀ = .ok b
  holds : b.Holds (admitted b₀.capacity b₀.bitmapWidth calls)
  shape : b₀.SameShape b

section Admits
variable {b₀ b : Builder}

theorem Builder.Admits.passed (h : b₀.Admits before b)
    (heq : admitted b₀.capacity b₀.bitmapWidth (before ++ [c]) = admitted b₀.capacity b₀.bitmapWidth before) :
    b₀.Admits (before ++ [c]) b where
  alone := heq ▸ h.alone
  holds := heq ▸ h.holds
  shape := h.shape

theorem Builder.Admits.replies (h : b₀.Admits before b)
    (ho : c ∈ admitted b₀.capacity b₀.bitmapWidth (before ++ [c]) → c.1.toNat < 256 ^ b₀.offsetWidth) :
    Checked.Replies (b₀.Admits (before ++ [c])) b (reply b₀.capacity b₀.bitmapWidth before c) (b.call c) := by
  have hfilled := h.holds.filled
  have hcapacity := h.shape.capacity
  rw [reply]
  split
  · rename_i hfull
    have hcall : b.call c = .error (.refused (.referenceMapFull b₀.capacity)) := by
      rw [Builder.call, Builder.add, if_pos (by omega), hcapacity]
      rfl
    rw [hcall]
    exact ⟨rfl, h.passed (admitted_of_full hfull)⟩
  · rename_i hnot
    -- With a slot free, only the width of the bitmap can be wrong.
    have hroom : (admitted b₀.capacity b₀.bitmapWidth before).length < b.capacity := by
      rw [hcapacity]
      exact Nat.lt_of_le_of_ne length_admitted_le hnot
    split
    · rename_i hmisfit
      have hcall : b.call c = .error (.refused (.bitmapWidthMismatch b₀.bitmapWidth c.2.size)) := by
        have hopen : ¬b.capacity ≤ b.filled := by omega
        simp [Builder.call, Builder.add, hopen, h.shape.bitmapWidth, hmisfit]
      rw [hcall]
      exact ⟨rfl, h.passed (admitted_of_misfit hmisfit)⟩
    · rename_i hfit
      have hsize := not_not.mp hfit
      have hadmitted := admitted_of_room hnot hsize
      have hoffset : c.1.toNat < 256 ^ b.offsetWidth := by
        rw [h.shape.offsetWidth]
        exact ho (hadmitted ▸ List.mem_append_right _ List.mem_cons_self)
      obtain ⟨b', hadd, hholds, hshape⟩ := h.holds.add hroom hoffset (hsize.trans h.shape.bitmapWidth.symm)
      rw [show b.call c = .ok b' from hadd]
      refine ⟨rfl, ?_, hadmitted ▸ hholds, h.shape.trans hshape⟩
      rw [hadmitted, List.foldlM_append, h.alone, Checked.ok_bind, List.foldlM_cons, show b.call c = .ok b' from hadd]
      rfl

end Admits

end Calls

theorem Builder.admits_free {capacity width : Nat} {greatest : UInt32} :
    (Builder.free capacity greatest width).Admits [] (.free capacity greatest width) where
  alone := by
    rw [admitted, List.filter_nil, List.take_nil]
    rfl
  holds := by
    rw [admitted, List.filter_nil, List.take_nil]
    exact holds_free
  shape := ⟨rfl, rfl, rfl⟩

theorem lt_of_requireBelow {what : Quantity} {value limit : Nat} {u : Unit} (h : requireBelow what value limit = .ok u) :
    value < limit := by
  rw [requireBelow] at h
  split at h
  · cases h
  · rename_i hlt
    exact Nat.lt_of_not_le hlt

theorem free_of_new {capacity width : Nat} {greatest : UInt32} {b : Builder}
    (h : Builder.new capacity greatest width = .ok b) : b = .free capacity greatest width ∧ b.Fits := by
  obtain ⟨_, -, h⟩ := Checked.bind_eq_ok.mp h
  obtain ⟨_, hwidth, h⟩ := Checked.bind_eq_ok.mp h
  obtain ⟨_, hcapacity, h⟩ := Checked.bind_eq_ok.mp h
  cases h
  exact ⟨rfl, offsetWidthFor_le greatest, lt_of_requireBelow hwidth,
    Nat.lt_of_le_of_lt (Nat.le_of_eq capacity_free) (lt_of_requireBelow hcapacity)⟩

/-- Calls on a new table, with any bitmaps and as many as there may be, of which the admitted ones have offsets that fit the
    width of the table. None traps. A call is refused if all slots are taken, or else if its bitmap has another width, and
    refused calls change nothing: the table is the one that the admitted calls lead to alone. Up to `capacity` calls with
    bitmaps of the right width are all admitted. The bytes of the table are accepted with its widths and its number of
    slots, and a search finds the bitmap of the first admitted call for an offset, and nothing for an offset without one,
    unless that is 0 and a slot is free. -/
theorem add_calls_found {capacity width : Nat} {greatest : UInt32} {b : Builder}
    (hnew : Builder.new capacity greatest width = .ok b) {calls : List (UInt32 × Bytes)}
    (hfit : ∀ c ∈ admitted capacity width calls, c.1.toNat < 256 ^ b.offsetWidth) :
    ∃ b' m,
      Checked.callAll Builder.call calls b = some (calls.mapIdx fun i c => reply capacity width (calls.take i) c, b') ∧
      (admitted capacity width calls).foldlM Builder.call b = .ok b' ∧
      (calls.length ≤ capacity → (∀ c ∈ calls, c.2.size = width) → admitted capacity width calls = calls) ∧
      ofBytes b'.table = .ok m ∧ m.offsetWidth = b.offsetWidth ∧ m.bitmapWidth = width ∧ m.size = capacity ∧
      m.Finds capacity (admitted capacity width calls) := by
  obtain ⟨rfl, hfits⟩ := free_of_new hnew
  have hcapacity : (Builder.free capacity greatest width).capacity = capacity := capacity_free
  have hstep : ∀ before c, before ++ [c] <+: calls → ∀ b, (Builder.free capacity greatest width).Admits before b →
      Checked.Replies ((Builder.free capacity greatest width).Admits (before ++ [c])) b
        (reply (Builder.free capacity greatest width).capacity width before c) (b.call c) := by
    intro before c hbefore b h
    refine h.replies fun hc => hfit c ?_
    rw [hcapacity] at hc
    exact (admitted_mono hbefore).subset hc
  obtain ⟨b', hrun, h⟩ := Checked.callAll_replies hstep Builder.admits_free
  have hfits' : b'.Fits := ⟨h.shape.offsetWidth ▸ hfits.offsetWidth, h.shape.bitmapWidth ▸ hfits.bitmapWidth,
    h.shape.capacity ▸ hfits.capacity⟩
  have hcapacity' : b'.capacity = capacity := h.shape.capacity.trans hcapacity
  have hholds := h.holds
  have halone := h.alone
  rw [hcapacity] at hrun hholds halone
  obtain ⟨hbytes, hoffset, hbitmap, hsize⟩ := hholds.ofBytes_table hfits'
  exact ⟨b', b'.map, hrun, halone, admitted_of_le, hbytes, hoffset.trans h.shape.offsetWidth,
    hbitmap.trans h.shape.bitmapWidth, hsize.trans hcapacity', hcapacity' ▸ hholds.finds hfits'⟩

/-- Calls for one offset twice, with a bitmap that is too wide among them, and one call too many, whose offset is too
    wide as well. -/
def sampleCalls : List (UInt32 × Bytes) := [(9, #[1]), (7, #[0xaa, 0]), (7, #[0xaa]), (9, #[2]), (500, #[3])]

theorem add_calls_found_sample : ∃ b b' m, Builder.new 3 9 1 = .ok b ∧
    Checked.callAll Builder.call sampleCalls b =
      some ([.ok (), .error (.bitmapWidthMismatch 1 2), .ok (), .ok (), .error (.referenceMapFull 3)], b') ∧
    ofBytes b'.table = .ok m ∧ m.find? 9 = .ok (some #[1]) ∧ m.find? 7 = .ok (some #[0xaa]) ∧ m.find? 0 = .ok none := by
  have hnew : Builder.new 3 9 1 = .ok (.free 3 9 1) := rfl
  have hfit : ∀ c ∈ admitted 3 1 sampleCalls, c.1.toNat < 256 ^ (Builder.free 3 9 1).offsetWidth := by decide
  obtain ⟨b', m, hrun, -, -, hm, -, -, -, hfinds⟩ := add_calls_found hnew hfit
  exact ⟨_, b', m, hnew, hrun, hm, hfinds.first 9 (9, #[1]) (by decide), hfinds.first 7 (7, #[0xaa]) (by decide),
    hfinds.absent 0 (by decide) (.inl (by decide))⟩

end MethodAssembler.ReferenceMap
