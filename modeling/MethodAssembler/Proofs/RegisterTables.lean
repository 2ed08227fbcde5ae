import MethodAssembler.Proofs.Inspection
import MethodAssembler.Proofs.Leb128.Streams
import MethodAssembler.Proofs.SortedWords

/-! # Register tables

A register table spells its entries: the core ones in the order of their machine registers, then the return address, then
the floating-point ones as they came. Every number in it ends with its own last byte, and the count comes first, so a table
that was cut short anywhere behind its first byte is told from a whole one. -/

namespace MethodAssembler

/-! ### Streams that were cut short -/

namespace Leb128
variable {cut extra rest : List UInt8}

/-- The front of a form has only bytes that ask for another. -/
theorem takeForm_truncated {top : UInt8} {overflow : Malformed} {index : Nat} (h : Delimited (cut ++ extra))
    (hextra : extra ≠ []) (hindex : index + cut.length ≤ 9) : takeForm top overflow index cut = .error .lebTruncated := by
  induction cut generalizing index with
  | nil => rfl
  | cons b cut ih =>
    rw [List.length_cons] at hindex
    have hne : index ≠ 9 := by omega
    cases hform : cut ++ extra with
    | nil => exact absurd (List.append_eq_nil_iff.mp hform).2 hextra
    | cons c form =>
      rw [List.cons_append, hform] at h
      cases h with
      | more hb hrest =>
        rw [takeForm, if_neg fun hover => hne hover.1, if_neg hb, ih (hform ▸ hrest) (by omega)]
        rfl

theorem takeUnsigned_truncated {value : UInt32} (h : encodeUnsigned value = cut ++ extra) (hextra : extra ≠ []) :
    takeUnsigned cut = .error .lebTruncated := by
  have hform : Unsigned (encodeUnsigned value) value.toNat := Number.form_encode (.unsigned value)
  have hlength := hform.length
  have hpos := List.length_pos_iff.mpr hextra
  rw [h, List.length_append] at hlength
  rw [takeUnsigned, readUnsigned_eq_map, takeForm_truncated (h ▸ hform.delimited) hextra (by omega)]
  rfl

/-- A stream is cut within its first number, which is refused then, or behind it. -/
theorem takeUnsigned_cut {value : UInt32} (h : cut ++ extra = encodeUnsigned value ++ rest) :
    takeUnsigned cut = .error .lebTruncated ∨ ∃ cut', takeUnsigned cut = .ok (value, cut') ∧ cut' ++ extra = rest := by
  rcases List.append_eq_append_iff.mp h with ⟨missing, hvalue, hextra'⟩ | ⟨cut', rfl, hrest⟩
  · cases missing with
    | nil =>
      -- cut between the first number and the next
      have htake := takeUnsigned_encode value []
      rw [List.append_nil, hvalue, List.append_nil] at htake
      exact .inr ⟨[], htake, hextra'⟩
    | cons b missing => exact .inl (takeUnsigned_truncated hvalue (List.cons_ne_nil _ _))
  · exact .inr ⟨cut', takeUnsigned_encode value cut', hrest.symm⟩

theorem takeUnsignedMany_truncated {values : List UInt32} (h : cut ++ extra = encodeStream values) (hextra : extra ≠ []) :
    takeUnsignedMany values.length cut = .error .lebTruncated := by
  induction values generalizing cut with
  | nil => exact absurd (List.append_eq_nil_iff.mp h).2 hextra
  | cons value values ih =>
    rcases takeUnsigned_cut h with htake | ⟨cut', htake, hcut'⟩
    · rw [List.length_cons, takeUnsignedMany, htake]
    · rw [List.length_cons, takeUnsignedMany, htake]
      simp only [ih hcut']

end Leb128

/-! ### Tables -/

namespace VmapTable

theorem ofBytes_truncated {values : List UInt32} {cut extra : List UInt8} (hcount : values.length < 2 ^ 32)
    (h : cut ++ extra = Leb128.encodeStream (.ofNat values.length :: values)) (hcut : cut ≠ []) (hextra : extra ≠ []) :
    ofBytes cut = .error .lebTruncated := by
  rw [ofBytes_of_ne_nil hcut]
  rcases Leb128.takeUnsigned_cut h with htake | ⟨cut', htake, hcut'⟩
  · rw [htake]
    rfl
  · have hmany := Leb128.takeUnsignedMany_truncated hcut' hextra
    simp only [htake, Checked.ok_bind, UInt32.toNat_ofNat_of_lt' hcount, hmany]
    rfl

theorem virtualRegister_eq_mod (entry : UInt32) : virtualRegister entry = entry % 0x10000 := by
  refine UInt32.toNat_inj.mp ?_
  rw [virtualRegister, UInt32.toNat_and, UInt32.toNat_mod]
  exact Nat.and_two_pow_sub_one_eq_mod entry.toNat 16

theorem length_entries (core fp : List UInt32) (frameSize : UInt32) :
    (entries core fp frameSize).length = core.length + fp.length + if 0 < frameSize then 1 else 0 := by
  have hsort := (SortedWords.perm_sort core).length_eq
  rw [entries]
  split <;> simp only [List.length_append, List.length_map, hsort, List.length_singleton, List.length_nil] <;> omega

/-- A table is built unless a method without a frame has spills. -/
theorem build_of_unspilled {frameSize : UInt32} {frame : Frame}
    (h : frameSize = 0 → frame.coreSpillMask = 0 ∧ frame.fpSpillMask = 0) (core fp : List UInt32) :
    build core fp frameSize frame =
      .ok (Leb128.encodeStream (.ofNat (entries core fp frameSize).length :: entries core fp frameSize)).toArray := by
  by_cases hframe : 0 < frameSize
  · simp [build, hframe]
  · obtain ⟨hcore, hfp⟩ := h (UInt32.le_zero_iff.mp (UInt32.not_lt.mp hframe))
    simp [build, hcore, hfp]

/-- The entries of a table are read back: the low halves of the sorted core entries, the return address of a method with a
    frame, and the low halves of the floating-point entries. Cut short, a table is refused unless nothing is left of it.
    The return address is counted with the entries, and the count is a word: with exactly 2 ^ 32 of them it would be stored
    as zero, and the table would be read as empty. -/
theorem build_roundTrip (core fp : List UInt32) (frameSize : UInt32) (frame : Frame)
    (hspills : frameSize = 0 → frame.coreSpillMask = 0 ∧ frame.fpSpillMask = 0)
    (hcount : core.length + fp.length + (if 0 < frameSize then 1 else 0) < 2 ^ 32) :
    ∃ (table : Bytes) (sorted : List UInt32), build core fp frameSize frame = .ok table ∧
      sorted.Perm core ∧ sorted.Pairwise (· ≤ ·) ∧
      decode table =
        .ok (sorted.map (· % 0x10000) ++ (if 0 < frameSize then [0xffff] else []) ++ fp.map (· % 0x10000)) ∧
      ∀ cut, cut <+: table.toList → cut ≠ [] → cut ≠ table.toList →
        decode cut.toArray = .error (.refused (.malformed .lebTruncated)) := by
  have hbuild := build_of_unspilled hspills core fp
  rw [← length_entries] at hcount
  refine ⟨_, SortedWords.sort core, hbuild, SortedWords.perm_sort core, SortedWords.pairwise_sort core, ?_, ?_⟩
  · rw [decode_build hbuild, Nat.mod_eq_of_lt hcount, List.take_length, entries, funext virtualRegister_eq_mod]
    rfl
  · rintro cut ⟨extra, hextra⟩ hcut hne
    have hmissing : extra ≠ [] := by
      rintro rfl
      exact hne (List.append_nil cut ▸ hextra)
    rw [decode, List.toList_toArray, ofBytes_truncated hcount hextra hcut hmissing]
    rfl

/-- Core entries out of order, a return address and an entry of two bytes. -/
theorem build_roundTrip_unsorted :
    build [0x70003, 0x20009] [0x50104] 32 { coreSpillMask := 0x84 } = .ok #[4, 9, 3, 0xff, 0xff, 3, 0x84, 2] ∧
      decode #[4, 9, 3, 0xff, 0xff, 3, 0x84, 2] = .ok [9, 3, 0xffff, 0x104] ∧
      decode #[4, 9, 3, 0xff, 0xff, 3, 0x84] = .error (.refused (.malformed .lebTruncated)) := by
  have hbuild : build [0x70003, 0x20009] [0x50104] 32 { coreSpillMask := 0x84 } =
    .ok #[4, 9, 3, 0xff, 0xff, 3, 0x84, 2] := rfl
  obtain ⟨table, sorted, htable, hperm, hsorted, hdecode, hcut⟩ :=
    build_roundTrip [0x70003, 0x20009] [0x50104] 32 { coreSpillMask := 0x84 } (by decide) (by decide)
  cases hbuild.symm.trans htable
  have hvalues : sorted = [0x20009, 0x70003] :=
    List.Perm.eq_of_pairwise (fun _ _ _ _ => UInt32.le_antisymm) hsorted (by decide) (hperm.trans (by decide))
  rw [hvalues] at hdecode
  exact ⟨hbuild, hdecode, hcut [4, 9, 3, 0xff, 0xff, 3, 0x84] ⟨[2], rfl⟩ (by decide) (by decide)⟩

end VmapTable

end MethodAssembler
