import MethodAssembler.Proofs.InstrList.Reachable
import MethodAssembler.Proofs.StreamLayout

/-! # The ranges of instructions

Stamping a list counts bytes: an instruction stands where the ones before it end, behind the gap that an alignment
leaves, and the next one stands where it ends. So the instructions that take code have ranges of their own, one behind
the other, and the encoder, which only ever goes forward, finds each of them where it was stamped. -/

namespace MethodAssembler

namespace FixedWidth

/-! ### Layouts -/

section Layouts
variable {width reached stop : UInt32} {entries stamped : List (InstrId × Instruction)}

theorem layOut_same (h : layOut width entries reached = .ok (stamped, stop)) :
    (stamped.map fun (id, i) => (id, { i with offset := 0 })) = entries.map fun (id, i) => (id, { i with offset := 0 }) :=
  layOut_map (fun _ _ _ => rfl) h

/-- Every entry stands behind the end of the ones before it. -/
theorem layOut_ascending (h : layOut width entries reached = .ok (stamped, stop)) :
    (∀ e ∈ stamped, reached.toNat ≤ e.2.offset.toNat) ∧
      stamped.Pairwise fun a b => a.2.offset.toNat + extent width a.2 ≤ b.2.offset.toNat := by
  induction entries generalizing reached stamped with
  | nil =>
    cases h
    simp
  | cons e entries ih =>
    obtain ⟨id, i⟩ := e
    obtain ⟨offset, next, tail, hp, ht, rfl⟩ := layOut_cons.mp h
    obtain ⟨hoffset, hnext⟩ := place_eq_ok_iff.mp hp
    obtain ⟨hle, htail⟩ := ih ht
    have hstart := le_startAt i reached.toNat
    constructor
    · intro e he
      rcases List.mem_cons.mp he with rfl | he
      · show reached.toNat ≤ offset.toNat
        omega
      · have := hle e he
        omega
    · refine List.pairwise_cons.mpr ⟨fun e he => ?_, htail⟩
      show offset.toNat + extent width i ≤ e.2.offset.toNat
      exact hnext ▸ hle e he

/-- From an aligned offset on everything is aligned until an instruction takes code. -/
theorem layOut_aligned (hd : 4 ∣ reached.toNat) (h : layOut width entries reached = .ok (stamped, stop))
    {between after : List (InstrId × Instruction)} {e : InstrId × Instruction} (hs : stamped = between ++ e :: after)
    (hb : ∀ m ∈ between, m.2.isLiveTarget = false) : 4 ∣ e.2.offset.toNat := by
  induction entries generalizing reached stamped between with
  | nil =>
    cases h
    simp at hs
  | cons x entries ih =>
    obtain ⟨id, i⟩ := x
    obtain ⟨offset, next, tail, hp, ht, rfl⟩ := layOut_cons.mp h
    obtain ⟨hoffset, hnext⟩ := place_eq_ok_iff.mp hp
    rw [startAt_of_dvd i hd] at hoffset
    cases between with
    | nil =>
      obtain ⟨rfl, -⟩ := List.cons.inj hs
      exact hoffset ▸ hd
    -- What stands between takes no code, so the next one starts at the same multiple of four.
    | cons m between =>
      obtain ⟨rfl, htail⟩ := List.cons.inj hs
      have hlive : i.isLiveTarget = false := hb _ List.mem_cons_self
      have hextent : extent width i = 0 := by simp [extent, hlive]
      refine ih ?_ ht htail fun m hm => hb m (List.mem_cons_of_mem _ hm)
      rw [hnext, hoffset, hextent]
      exact hd

theorem layOut_aligned_behind (h : layOut width entries reached = .ok (stamped, stop))
    {before between after : List (InstrId × Instruction)} {align e : InstrId × Instruction}
    (hs : stamped = before ++ align :: (between ++ e :: after)) (ha : align.2.opcode = .pseudo .align4)
    (hb : ∀ m ∈ between, m.2.isLiveTarget = false) : 4 ∣ e.2.offset.toNat := by
  induction entries generalizing reached stamped before with
  | nil =>
    cases h
    simp at hs
  | cons x entries ih =>
    obtain ⟨id, i⟩ := x
    obtain ⟨offset, next, tail, hp, ht, rfl⟩ := layOut_cons.mp h
    cases before with
    | nil =>
      obtain ⟨rfl, htail⟩ := List.cons.inj hs
      obtain ⟨hoffset, hnext⟩ := place_eq_ok_iff.mp hp
      have hop : i.opcode = .pseudo .align4 := ha
      have hstart : 4 ∣ startAt i reached.toNat := by
        rw [startAt, if_pos hop]
        exact dvd_roundUp _ _
      refine layOut_aligned ?_ ht htail hb
      rw [hnext, hoffset, extent_of_pseudo hop]
      exact hstart
    | cons x before =>
      obtain ⟨-, htail⟩ := List.cons.inj hs
      exact ih ht htail

end Layouts

/-! ### Ranges -/

/-- A stamped list and the bytes of its code agree: `size` is where the code ends. -/
structure Stamped (width size : UInt32) (l : InstrList) : Prop where
  ascending : l.entries.Pairwise fun a b => a.2.offset ≤ b.2.offset
  /-- What takes code ends before the next instruction that takes code starts. -/
  disjoint : (l.entries.filter (·.2.isLiveTarget)).Pairwise fun a b => a.2.offset.toNat + width.toNat ≤ b.2.offset.toNat
  within : ∀ e ∈ l.entries, e.2.isLiveTarget = true → e.2.offset.toNat + width.toNat ≤ size.toNat
  aligned : ∀ before align between e after, l.entries = before ++ align :: (between ++ e :: after) →
    align.2.opcode = .pseudo .align4 → (∀ m ∈ between, m.2.isLiveTarget = false) → 4 ∣ e.2.offset.toNat
  mappable : ∀ kind previous offset,
    MappingTable.create l ≠ .error (.refused (.nonMonotonicOffset kind previous offset))
  encoded : ∃ code, (Encoder.fixedWidth width).encode l = .ok code ∧ code.size ≤ size.toNat ∧
    ∀ e ∈ l.entries, ∀ op, e.2.isNop = false → e.2.opcode = .target op →
      StandsAt code e.2.offset.toNat (instrBytes width op e.2)

section Stamped
variable {width size : UInt32} {l l' : InstrList} {entries : List (InstrId × Instruction)}

theorem disjoint_of_layOut (h : layOut width entries 0 = .ok (l.entries, size)) :
    (l.entries.filter (·.2.isLiveTarget)).Pairwise fun a b => a.2.offset.toNat + width.toNat ≤ b.2.offset.toNat := by
  refine List.pairwise_filter.mpr ((layOut_ascending h).2.imp fun {a b} hab ha _ => ?_)
  rwa [extent_of_live ha] at hab

/-- The offsets of markers never decrease, so no entry of a mapping table is refused. -/
theorem mappable_of_layOut (h : layOut width entries 0 = .ok (l.entries, size)) (kind : MappingKind)
    (previous offset : UInt32) :
    MappingTable.create l ≠ .error (.refused (.nonMonotonicOffset kind previous offset)) := by
  intro hrefused
  rw [MappingTable.create, l.markers_eq] at hrefused
  have hordered : ∀ k, MappingTable.Ordered ⟨0, 0⟩ (MappingTable.entriesOf k (markersOf l.entries)) :=
    MappingTable.ordered_markersOf h (Nat.le_refl _)
  exact MappingTable.encode_refuses (P := fun _ => False) hordered _ hrefused

theorem encoded_of_layOut (h : layOut width entries 0 = .ok (l.entries, size)) :
    (encode width l).size ≤ size.toNat ∧ ∀ e ∈ l.entries, ∀ op, e.2.isNop = false → e.2.opcode = .target op →
      StandsAt (encode width l) e.2.offset.toNat (instrBytes width op e.2) := by
  have hascends : Ascends (#[] : Bytes).size (placements width l.entries) size.toNat := ascends_placements h
  rw [encode_eq_putAll]
  constructor
  · have hend : Ascends (Bytes.putAll #[] (placements width l.entries)).size [] size.toNat :=
      Bytes.ascends_putAll (by rwa [List.append_nil])
    exact hend
  · rintro ⟨id, i⟩ he op (hnop : i.isNop = false) (hop : i.opcode = .target op)
    have hplacement : placement? width i = some ⟨i.offset, instrBytes width op i⟩ := by
      simp only [placement?, hnop, hop]
    exact Bytes.standsAt_putAll hascends (List.mem_filterMap.mpr ⟨(id, i), he, hplacement⟩)

theorem stamped_of_layOut (h : layOut width entries 0 = .ok (l.entries, size)) : Stamped width size l where
  ascending := (layOut_ascending h).2.imp fun hab => UInt32.le_iff_toNat_le.mpr (by omega)
  disjoint := disjoint_of_layOut h
  within := fun e he hlive => by
    have hstop := (layOut_le_stop h).2 e.1 e.2 he
    rwa [extent_of_live hlive] at hstop
  aligned := fun _ _ _ _ _ hs ha hb => layOut_aligned_behind h hs ha hb
  mappable := mappable_of_layOut h
  encoded := ⟨_, rfl, encoded_of_layOut h⟩

end Stamped

section Runs
variable {width size : UInt32} {l l' : InstrList} {ids : List InstrId}

theorem layOut_of_assignOffsets (h : l.Links ids) (hrun : (Encoder.fixedWidth width).assignOffsets l = .ok size l') :
    layOut width l.entries 0 = .ok (l'.entries, size) := by
  obtain ⟨⟨stamped, stop⟩, hlayout, rfl, rfl, -⟩ := (assignOffsets_follows h).ok hrun
  exact hlayout

theorem assignOffsets_of_lt (h : l.Links ids) (hlt : codeEnd width l.entries 0 < 2 ^ 32) :
    ∃ size l', (Encoder.fixedWidth width).assignOffsets l = .ok size l' := by
  obtain ⟨stamped, stop, hlayout⟩ : ∃ stamped stop, layOut width l.entries 0 = .ok (stamped, stop) := layOut_of_lt hlt
  have hfollows : Stateful.Follows (layOut width l.entries 0) _ (assignOffsets width l) := assignOffsets_follows h
  rw [hlayout] at hfollows
  obtain ⟨size, l', hrun, -⟩ := hfollows.exists_ok
  exact ⟨size, l', hrun⟩

end Runs

/-- Two instructions, and between them an alignment and a marker. -/
def alignedPair : InstrList where
  arena := #[
    { instr := .target 1 0 [7], next := some 1, linked := true },
    { instr := .pseudo .align4 2, prev := some 0, next := some 2, linked := true },
    { instr := .marker .exportedPc 2, prev := some 1, next := some 3, linked := true },
    { instr := .target 2 2 [], prev := some 2, linked := true }]
  first := some 0
  last := some 3
  length := 4

theorem alignedPair_reachable : alignedPair.Reachable := by
  have h₁ : InstrList.Edits (.empty false none) _ := .step .refl ⟨.push (.target 1 0 [7]), .inl ⟨_, rfl⟩⟩
  have h₂ := h₁.step ⟨.push (.pseudo .align4 2), .inl ⟨_, rfl⟩⟩
  have h₃ := h₂.step ⟨.markExported 2, .inl ⟨_, rfl⟩⟩
  exact ⟨false, none, h₃.step ⟨.push (.target 2 2 []), .inl ⟨_, rfl⟩⟩⟩

end FixedWidth

end MethodAssembler
