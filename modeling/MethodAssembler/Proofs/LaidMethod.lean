import MethodAssembler.Proofs.StreamLayout

/-! # Laid-out methods

A description that compiles has been laid out before (`Laid.Of`): its code takes four bytes for each machine instruction,
the data follow without a gap, and everything stands in the image where the layout put it. -/

namespace MethodAssembler

/-- A layout that a description has. -/
structure Laid.Of (d : Description) (config : Config) (l : Laid) : Prop where
  draft : l.filling.draft.Of d.instructions
  live : d.liveness = .ok l.live
  targets : ∃ count, (l.filling.draft.labelling config).tableTargets (d.dataSections l.filling).switchTables
    l.filling.draft.records.length = .ok (l.tables, count)
  records : FixedWidth.layOut 4 (numbered l.filling.draft.records) 0 = .ok (l.stamped, l.layout.dataOffset)
  data : ({ d.dataSections l.filling with switchTables := l.tables } : DataSections).assign l.layout.dataOffset 4 =
    .ok (l.data, l.layout)

variable {d : Description} {config : Config} {l : Laid} {out : MethodOutput}

namespace Laid.Of

theorem map_records (h : l.Of d config) :
    (numbered l.filling.draft.records).map (·.2) = d.instructions.flatMap StreamItem.records := by
  rw [map_numbered, h.draft.records]

theorem dataOffset_eq (h : l.Of d config) : l.layout.dataOffset.toNat = 4 * machineCount d.instructions :=
  layOut_stream_stop h.map_records h.records

/-- What a laid-out method places in its image stands one behind the other. -/
theorem ascends (h : l.Of d config) (origin : BranchOrigin) :
    Ascends 0 (placedBytes l.stamped l.data l.layout origin) l.layout.totalSize.toNat := by
  obtain ⟨count, htargets⟩ := h.targets
  refine (FixedWidth.ascends_placements h.records).append (DataSections.ascends_placements h.data _ fun t ht offset => ?_)
  exact SwitchTable.image_length_le (Labelling.tableTargets_eq_ok htargets t ht).count

end Laid.Of

namespace Description

theorem of_lay (h : d.lay config = .ok l) : l.Of d config := by
  obtain ⟨filling, hfilling, h⟩ := Checked.bind_eq_ok.mp h
  obtain ⟨live, hlive, h⟩ := Checked.bind_eq_ok.mp h
  obtain ⟨⟨tables, count⟩, htables, h⟩ := Checked.bind_eq_ok.mp h
  obtain ⟨⟨stamped, data, layout⟩, hlaid, h⟩ := Checked.bind_eq_ok.mp h
  cases h
  obtain ⟨codeSize, hrecords, hassign⟩ := laidOut_eq_ok.mp hlaid
  have hdraft := draft_of_filling hfilling
  -- code ends at a multiple of four, so that is where the data start
  have hcode : codeSize.toNat = 4 * machineCount d.instructions :=
    layOut_stream_stop ((map_numbered _).trans hdraft.records) hrecords
  obtain ⟨_, _, _, _, hspread⟩ := DataSections.spread_of_assign hassign
  obtain rfl : layout.dataOffset = codeSize :=
    UInt32.toNat_inj.mp (hspread.dataOffset.trans (roundUp_of_dvd (by decide) (hcode ▸ Nat.dvd_mul_right 4 _)))
  exact ⟨hdraft, hlive, ⟨count, htables⟩, hrecords, hassign⟩

/-- A method that compiles has a layout, from which it was made. -/
theorem of_outline (h : d.outline config = .ok out) : ∃ l : Laid, l.Of d config ∧ l.finish d config = .ok out := by
  rw [outline] at h
  obtain ⟨l, hlay, hfinish⟩ := Checked.bind_eq_ok.mp h
  exact ⟨l, of_lay hlay, hfinish⟩

theorem filling_of_outline (h : d.outline config = .ok out) : ∃ f, d.filling config.maxInstructions = .ok f := by
  obtain ⟨l, hlay, -⟩ := Checked.bind_eq_ok.mp h
  obtain ⟨f, hfilling, -⟩ := Checked.bind_eq_ok.mp hlay
  exact ⟨f, hfilling⟩

end Description

/-- The parts of a compiled method. -/
structure Laid.Finished (d : Description) (config : Config) (l : Laid) (out : MethodOutput) : Prop where
  origins : checkOrigins (.ofRecords (l.stamped.map (·.2))) config.branchOrigin l.data.switchTables = .ok ()
  code : out.method.code = Bytes.putAll #[] (placedBytes l.stamped l.data l.layout config.branchOrigin)
  patches : out.patches = (l.data.patches d.context).toArray
  tables : ∃ mapping references, MappingTable.encode (markersOf l.stamped) = .ok mapping ∧
    ReferenceMap.create mapping.table l.live = .ok references ∧
    out.method.mappingTable = mapping.table ∧ out.method.referenceMap = references.table

namespace Laid

theorem finished_of_finish (h : l.finish d config = .ok out) : l.Finished d config out := by
  obtain ⟨_, horigins, h⟩ := Checked.bind_eq_ok.mp h
  obtain ⟨mapping, hmapping, h⟩ := Checked.bind_eq_ok.mp h
  obtain ⟨references, hreferences, h⟩ := Checked.bind_eq_ok.mp h
  obtain ⟨vmapTable, -, h⟩ := Checked.bind_eq_ok.mp h
  cases h
  exact ⟨horigins, rfl, rfl, mapping, references, hmapping, hreferences, rfl, rfl⟩

theorem vmapTable_of_finish (h : l.finish d config = .ok out) :
    VmapTable.build d.coreVmap d.fpVmap l.filling.frameSize d.frame = .ok out.method.vmapTable := by
  obtain ⟨_, -, h⟩ := Checked.bind_eq_ok.mp h
  obtain ⟨mapping, -, h⟩ := Checked.bind_eq_ok.mp h
  obtain ⟨references, -, h⟩ := Checked.bind_eq_ok.mp h
  obtain ⟨vmapTable, hvmap, h⟩ := Checked.bind_eq_ok.mp h
  cases h
  exact hvmap

theorem Finished.standsAt (h : l.Finished d config out) (hl : l.Of d config) {p : Placement}
    (hp : p ∈ placedBytes l.stamped l.data l.layout config.branchOrigin) : StandsAt out.method.code p.start p.bytes := by
  rw [h.code]
  exact @Bytes.standsAt_putAll #[] _ _ (hl.ascends config.branchOrigin) _ hp

end Laid

end MethodAssembler
