import MethodAssembler.Proofs.MappingTable

/-! # Which lists have a mapping table

A list has a mapping table exactly if the native offsets of its safepoints do not decrease and those of its exported PCs
do not either; the two kinds may interleave in any way, and the source PCs in any order. The table spells the markers of
the list. A list without one is refused at the first marker below the one before it of its kind. -/

namespace MethodAssembler

/-- The pseudo instruction that marks the entries of a block. -/
def MappingKind.marker : MappingKind → Pseudo
  | .pcToDex => .safepointPc
  | .dexToPc => .exportedPc

/-- The entries that the linked markers of a block stand for, nops left out, in list order. -/
def InstrList.marked (l : InstrList) (kind : MappingKind) : List MappingEntry :=
  (l.live.filter fun (_, i) => i.opcode = .pseudo kind.marker).map fun (_, i) => ⟨i.offset, i.dexPc⟩

namespace MappingTable

/-- Native offsets do not decrease. -/
def Ascending (entries : List MappingEntry) : Prop := entries.Pairwise (·.nativeOffset ≤ ·.nativeOffset)

instance (entries : List MappingEntry) : Decidable (Ascending entries) := inferInstanceAs (Decidable (List.Pairwise _ _))

/-- Somewhere the native offset falls from `previous` to `offset`, from one entry to the next. -/
def Drops (entries : List MappingEntry) (previous offset : UInt32) : Prop :=
  offset < previous ∧ ∃ before a b after, entries = before ++ a :: b :: after ∧ a.nativeOffset = previous ∧
    b.nativeOffset = offset

section
variable {entries : List MappingEntry} {last e : MappingEntry} {previous offset : UInt32}

theorem Drops.cons (h : Drops entries previous offset) (e : MappingEntry) : Drops (e :: entries) previous offset := by
  obtain ⟨hlt, before, a, b, after, rfl, ha, hb⟩ := h
  exact ⟨hlt, e :: before, a, b, after, rfl, ha, hb⟩

/-- Nothing drops below the zeros that a block starts from. -/
theorem Drops.of_zero (h : Drops (⟨0, 0⟩ :: entries) previous offset) : Drops entries previous offset := by
  obtain ⟨hlt, before, a, b, after, hsplit, ha, hb⟩ := h
  cases before with
  | nil =>
    obtain ⟨rfl, -⟩ := List.cons.inj hsplit
    subst ha
    exact absurd hlt UInt32.not_lt_zero
  | cons x before =>
    obtain ⟨-, rfl⟩ := List.cons.inj hsplit
    exact ⟨hlt, before, a, b, after, rfl, ha, hb⟩

theorem ordered_iff : Ordered last entries ↔ Ascending (last :: entries) := by
  induction entries generalizing last with
  | nil => simp [Ordered, Ascending]
  | cons e entries ih =>
    rw [Ordered, ih]
    constructor
    · rintro ⟨hle, hasc⟩
      refine List.pairwise_cons.mpr ⟨fun x hx => ?_, hasc⟩
      rcases List.mem_cons.mp hx with rfl | hx
      · exact hle
      · exact UInt32.le_trans hle (List.rel_of_pairwise_cons hasc hx)
    · intro hasc
      exact ⟨List.rel_of_pairwise_cons hasc List.mem_cons_self, (List.pairwise_cons.mp hasc).2⟩

theorem ordered_zero_iff : Ordered ⟨0, 0⟩ entries ↔ Ascending entries := by
  rw [ordered_iff]
  exact ⟨fun h => (List.pairwise_cons.mp h).2, fun h => List.pairwise_cons.mpr ⟨fun _ _ => UInt32.zero_le, h⟩⟩

end

/-! ### Refusals -/

section Refusals
variable {markers : List (MappingKind × MappingEntry)} {b : Blocks Progress} {fault : Fault}

/-- A block that can be counted further refuses only an entry below its last one. -/
theorem Progress.step_eq_error {p : Progress} {kind : MappingKind} {e : MappingEntry} (h : p.step kind e = .error fault)
    (hc : p.count.toNat + 1 < 2 ^ 32) :
    e.nativeOffset < p.last.nativeOffset ∧
      fault = .refused (.nonMonotonicOffset kind p.last.nativeOffset e.nativeOffset) := by
  rw [step] at h
  by_cases hlt : e.nativeOffset < p.last.nativeOffset
  · simp only [hlt, if_true, Checked.throw_eq, Checked.error_bind] at h
    exact ⟨hlt, (Except.error.inj h).symm⟩
  · obtain ⟨count, hcount, -⟩ := addWords_of_lt (show p.count.toNat + (1 : UInt32).toNat < 2 ^ 32 from hc)
    simp [hlt, hcount] at h

theorem measure_eq_error (h : measure markers b = .error fault)
    (hc : ∀ k, (b.get k).count.toNat + (entriesOf k markers).length < 2 ^ 32) :
    ∃ kind previous offset, fault = .refused (.nonMonotonicOffset kind previous offset) ∧
      Drops ((b.get kind).last :: entriesOf kind markers) previous offset := by
  induction markers generalizing b with
  | nil => cases h
  | cons marker markers ih =>
    obtain ⟨kind, e⟩ := marker
    have hcount := hc kind
    simp only [entriesOf, if_true, List.length_cons] at hcount
    rcases Checked.bind_eq_error.mp h with hstep | ⟨⟨d, q⟩, hstep, hrest⟩
    · -- The entry itself is below the last one of its block.
      obtain ⟨hlt, rfl⟩ := Progress.step_eq_error hstep (by omega)
      refine ⟨kind, _, _, rfl, hlt, [], (b.get kind).last, e, entriesOf kind markers, ?_, rfl, rfl⟩
      simp only [entriesOf, if_true, List.nil_append]
    · obtain ⟨-, hnext⟩ := Progress.step_eq_ok.mp hstep
      have hcounts : ∀ k, ((b.set kind q).get k).count.toNat + (entriesOf k markers).length < 2 ^ 32 := by
        intro k
        have hk := hc k
        rw [Blocks.get_set]
        by_cases hkind : k = kind
        · subst hkind
          rw [if_pos rfl, hnext.count]
          omega
        · rw [if_neg hkind]
          simpa only [entriesOf, if_neg (Ne.symm hkind)] using hk
      obtain ⟨k, previous, offset, hfault, hdrops⟩ := ih hrest hcounts
      refine ⟨k, previous, offset, hfault, ?_⟩
      rw [Blocks.get_set] at hdrops
      by_cases hkind : k = kind
      · subst hkind
        rw [if_pos rfl, hnext.last] at hdrops
        simp only [entriesOf, if_true]
        exact hdrops.cons _
      · rw [if_neg hkind] at hdrops
        simpa only [entriesOf, if_neg (Ne.symm hkind)] using hdrops

theorem encode_eq_error (h : encode markers = .error fault)
    (hc : (entriesOf .pcToDex markers).length + (entriesOf .dexToPc markers).length < 2 ^ 32) :
    ∃ kind previous offset, fault = .refused (.nonMonotonicOffset kind previous offset) ∧
      Drops (entriesOf kind markers) previous offset := by
  cases hsizes : measure markers ⟨{}, {}⟩ with
  | ok sizes =>
    obtain ⟨built, hbuilt, -⟩ := encode_of_measure hsizes hc
    rw [hbuilt] at h
    cases h
  | error fault' =>
    rw [encode, hsizes] at h
    cases h
    obtain ⟨kind, previous, offset, hfault, hdrops⟩ := measure_eq_error hsizes fun k => by
      cases k <;> simp only [Blocks.get] <;> show 0 + _ < _ <;> omega
    refine ⟨kind, previous, offset, hfault, Drops.of_zero ?_⟩
    cases kind <;> exact hdrops

end Refusals

/-! ### Markers of a list -/

theorem mappingKind_eq_some {i : Instruction} {kind : MappingKind} :
    i.mappingKind = some kind ↔ i.isNop = false ∧ i.opcode = .pseudo kind.marker := by
  rw [Instruction.mappingKind]
  cases i.isNop with
  | true => simp
  | false =>
    by_cases hs : i.opcode = .pseudo .safepointPc
    · cases kind <;> simp [hs, MappingKind.marker]
    · by_cases he : i.opcode = .pseudo .exportedPc
      · cases kind <;> simp [he, MappingKind.marker]
      · cases kind <;> simp [hs, he, MappingKind.marker]

theorem entriesOf_markers (l : InstrList) (kind : MappingKind) :
    entriesOf kind (l.markers.map (·.2)) = l.marked kind := by
  rw [InstrList.markers, InstrList.marked, InstrList.live, List.filter_filter]
  induction l.entries with
  | nil => rfl
  | cons entry entries ih =>
    obtain ⟨id, i⟩ := entry
    rw [List.filterMap_cons, List.filter_cons]
    by_cases hk : i.mappingKind = some kind
    · obtain ⟨hnop, hop⟩ := mappingKind_eq_some.mp hk
      simpa [hk, hnop, hop, entriesOf, Instruction.mappingEntry] using ih
    · have hdrop : ¬(i.opcode = .pseudo kind.marker ∧ i.isNop = false) := fun h => hk (mappingKind_eq_some.mpr h.symm)
      cases hm : i.mappingKind with
      | none => simpa [hm, hdrop] using ih
      | some k =>
        have hne : k ≠ kind := fun h => hk (hm.trans (congrArg some h))
        simpa [hm, hdrop, hne, entriesOf] using ih

/-- A table can be made of a list exactly if the native offsets of each kind of marker do not decrease, whatever the
    source PCs are, and decoding it gives the markers of both kinds back, in list order. Otherwise the list is refused
    for two markers of one kind that follow each other with falling offsets. -/
theorem create_roundTrip (l : InstrList)
    (h : (l.marked .pcToDex).length + (l.marked .dexToPc).length < 2 ^ 32) :
    ((∃ built, create l = .ok built) ↔ ∀ kind, Ascending (l.marked kind)) ∧
      (∀ fault, create l = .error fault → ∃ kind previous offset,
        fault = .refused (.nonMonotonicOffset kind previous offset) ∧ Drops (l.marked kind) previous offset) ∧
      ∀ built, create l = .ok built → decode built.table = .ok ⟨l.marked .pcToDex, l.marked .dexToPc⟩ := by
  simp only [← entriesOf_markers] at h ⊢
  refine ⟨⟨?_, ?_⟩, fun fault hfault => encode_eq_error hfault h, fun built hbuilt => decode_encode hbuilt⟩
  · rintro ⟨built, hbuilt⟩ kind
    obtain ⟨sizes, hsizes, -⟩ := Checked.bind_eq_ok.mp hbuilt
    have hordered := (measure_eq_ok hsizes kind).1
    cases kind <;> exact ordered_zero_iff.mp hordered
  · intro hasc
    exact encode_of_ordered (fun kind => ordered_zero_iff.mpr (hasc kind)) h

/-- Two safepoints at one offset, whose source PCs wrap around, an exported PC below them, and a nop far above. -/
def sampleList : InstrList where
  arena := #[
    { instr := { Instruction.marker .safepointPc 0xffffffff with offset := 8 }, next := some 1, linked := true },
    { instr := { Instruction.marker .exportedPc 7 with offset := 4 }, prev := some 0, next := some 2, linked := true },
    { instr := { Instruction.marker .safepointPc 100 with offset := 64, isNop := true }, prev := some 1,
      next := some 3, linked := true },
    { instr := { Instruction.marker .safepointPc 3 with offset := 8 }, prev := some 2, linked := true }]
  first := some 0
  last := some 3
  length := 4

theorem create_roundTrip_sample :
    (sampleList.marked .pcToDex).length + (sampleList.marked .dexToPc).length < 2 ^ 32 ∧
      ∃ built, create sampleList = .ok built ∧ decode built.table = .ok ⟨[⟨8, 0xffffffff⟩, ⟨8, 3⟩], [⟨4, 7⟩]⟩ := by
  have hcount : (sampleList.marked .pcToDex).length + (sampleList.marked .dexToPc).length < 2 ^ 32 := by decide
  obtain ⟨hiff, -, hdecode⟩ := create_roundTrip sampleList hcount
  obtain ⟨built, hbuilt⟩ := hiff.mpr fun kind => by cases kind <;> decide
  exact ⟨hcount, built, hbuilt, hdecode built hbuilt⟩

end MappingTable

end MethodAssembler
