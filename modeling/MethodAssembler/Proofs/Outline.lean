import MethodAssembler.Proofs.Agreement
import MethodAssembler.Proofs.MappingTable

/-! # The outline of a compilation

What compiling a description comes to, told without a unit: the records of its draft are laid out with their data, and
image and tables are read off the layout (`Description.outline`). A compilation follows its outline, whatever
diagnostics leave in the list or put into it on the way. -/

namespace MethodAssembler

/-! ### Labels -/

/-- The labels of a draft. -/
def Draft.labelling (config : Config) (s : Draft) : Labelling where
  verbose := config.verbose
  limit := config.maxInstructions
  labels := s.labels
  linked _ := true

namespace Labelling
variable {g g' : Labelling}

theorem caseTargets_congr (ht : ∀ t i, g.caseTarget t i = g'.caseTarget t i) (hr : g.reserveCase = g'.reserveCase)
    (t : SwitchTable) (left i count : Nat) : g.caseTargets t left i count = g'.caseTargets t left i count := by
  induction left generalizing i count with
  | zero => rfl
  | succ left ih => simp only [caseTargets, ht, hr, ih]

theorem tableTargets_congr (ht : ∀ t i, g.caseTarget t i = g'.caseTarget t i) (hr : g.reserveCase = g'.reserveCase)
    (tables : List SwitchTable) (count : Nat) : g.tableTargets tables count = g'.tableTargets tables count := by
  induction tables generalizing count with
  | nil => rfl
  | cons t tables ih => simp only [tableTargets, caseTargets_congr ht hr, ih]

/-- Labels that are linked need not be asked for it. -/
theorem caseTarget_of_linked (h : ∀ pc label, (pc, label) ∈ g.labels → g.linked label = true) (t : SwitchTable) (i : Nat) :
    g.caseTarget t i = { g with linked := fun _ => true }.caseTarget t i := by
  rw [caseTarget, caseTarget]
  cases t.caseDexPc i with
  | error e => rfl
  | ok dexPc =>
    simp only [Checked.ok_bind]
    cases hlookup : g.labels.lookup dexPc with
    | none => rfl
    | some label => simp only [h dexPc label (mem_of_lookup hlookup)]

end Labelling

namespace Description.Filled
variable {d : Description} {config : Config} {f : Filling} {u : MethodUnit}

theorem labelsAllocated (h : Filled d config f u) : u.LabelsAllocated := by
  intro pc label hmem
  rw [h.same] at hmem
  have hlt := (List.getElem?_eq_some_iff.mp (h.draft.labels pc label hmem)).1
  rwa [h.list.size]

theorem tableTargets_eq (h : Filled d config f u) : u.labelling.tableTargets u.data.switchTables u.list.arena.size =
    (f.draft.labelling config).tableTargets (d.dataSections f).switchTables f.draft.records.length := by
  have hlabels : u.blockLabels = f.draft.labels := by rw [h.same]
  have hverbose : u.config.verbose = config.verbose := by rw [h.same]; rfl
  have hdata : u.data = d.dataSections f := by rw [h.same]
  have hlinked : ∀ pc label, (pc, label) ∈ u.labelling.labels → u.labelling.linked label = true := by
    intro pc label hmem
    simp only [MethodUnit.labelling, hlabels] at hmem
    simp only [MethodUnit.labelling, decide_eq_true_eq, h.list.links.order_eq]
    exact mem_keptIds.mpr ⟨_, h.draft.labels pc label hmem, by simp [Instruction.pseudo]⟩
  have hsame : { u.labelling with linked := fun _ => true } = f.draft.labelling config := by
    simp only [MethodUnit.labelling, Draft.labelling, hlabels, hverbose, h.list.limit, InstrList.empty]
  rw [hdata, h.list.size, ← hsame]
  exact Labelling.tableTargets_congr (Labelling.caseTarget_of_linked hlinked) rfl _ _

end Description.Filled

/-! ### Layout -/

/-- Nops come from target instructions, so none of them aligns what follows it. -/
theorem StreamItem.opcode_of_nop {item : StreamItem} {i : Instruction} (h : i ∈ item.records) (hn : i.isNop = true) :
    i.opcode ≠ .pseudo .align4 := by
  cases item with
  | align4 =>
    cases List.mem_singleton.mp h
    cases hn
  | call | invokeCode | invokeMethod =>
    rcases List.mem_cons.mp h with rfl | h
    · exact nofun
    · cases List.mem_singleton.mp h
      exact nofun
  | label | op | loadWord | loadWide | switch | exportPc =>
    cases List.mem_singleton.mp h
    exact nofun

theorem isIdle_of_not_plain {e : InstrId × Instruction} (h : isPlain e = false)
    (hn : e.2.isNop = true → e.2.opcode ≠ .pseudo .align4) : FixedWidth.isIdle e.2 = true := by
  cases hnop : e.2.isNop with
  | true => simp [FixedWidth.isIdle, Instruction.isLiveTarget, hnop, hn hnop]
  | false =>
    have hop : e.2.opcode = .pseudo .caseLabel := by simpa [isPlain, hnop] using h
    simp [FixedWidth.isIdle, Instruction.isLiveTarget, hop, Opcode.isPseudo]

theorem Draft.Of.opcode_of_nop {items : List StreamItem} {s : Draft} (h : s.Of items) {i : Instruction}
    (hi : i ∈ s.records) (hn : i.isNop = true) : i.opcode ≠ .pseudo .align4 := by
  rw [h.records] at hi
  obtain ⟨item, -, hi⟩ := List.mem_flatMap.mp hi
  exact StreamItem.opcode_of_nop hi hn

/-- A unit whose offsets are assigned, `u₀` before its switches were resolved, as a layout of records says. -/
structure MethodUnit.Placed (u₀ : MethodUnit) (stamped : List (InstrId × Instruction)) (data : DataSections)
    (layout : DataLayout) (u : MethodUnit) : Prop where
  entries : u.list.entries.filter isPlain = stamped.filter isPlain
  tables : List.Forall₂ (SwitchTable.Matches (.ofRecords (stamped.map (·.2))) u.list) data.switchTables u.data.switchTables
  installable : u.data.Installable u.list
  ascends : ∃ stop, Ascends 0 (u.placements 4) stop
  same : u = { u₀ with
    list := u.list, data := { data with switchTables := u.data.switchTables }, layout := layout, events := u.events }

namespace Description

theorem accepted_of_mapM {fills : List FillDescription} {fillArrays : List FillArray}
    (h : fills.mapM (fun f => FillArray.ofElements f.elementWidth f.data f.dexPc) = .ok fillArrays) :
    ∀ a ∈ fillArrays, a.Accepted := by
  induction fills generalizing fillArrays with
  | nil =>
    cases h
    exact fun _ ha => absurd ha List.not_mem_nil
  | cons f fills ih =>
    simp only [List.mapM_cons, Checked.bind_eq_ok, Checked.pure_eq, Except.ok.injEq] at h
    obtain ⟨first, hfirst, rest, hrest, rfl⟩ := h
    intro a ha
    rcases List.mem_cons.mp ha with rfl | ha
    · exact FillArray.accepted_of_parse hfirst
    · exact ih hrest a ha

theorem accepted_of_filling {d : Description} {limit : Option Nat} {f : Filling} (h : d.filling limit = .ok f) :
    ∀ a ∈ f.fillArrays, a.Accepted := by
  simp only [filling, Checked.bind_eq_ok, Checked.pure_eq, Except.ok.injEq] at h
  obtain ⟨draft, -, fillArrays, hfills, frameSize, -, rfl⟩ := h
  exact accepted_of_mapM hfills

theorem anchor_switchTables {anchors : Anchors} {number : Nat} {switches : List SwitchDescription} {t : SwitchTable}
    (h : t ∈ switchTables anchors number switches) : ∃ n, t.anchor = anchors.lookup n := by
  induction switches generalizing number with
  | nil => cases h
  | cons s switches ih =>
    rcases List.mem_cons.mp h with rfl | h
    · exact ⟨number, rfl⟩
    · exact ih h

/-- The tables of a description lead to labels among its records, and target instructions dispatch through them. -/
theorem refers_of_tableTargets {d : Description} {config : Config} {f : Filling} (hf : f.draft.Of d.instructions)
    {plain : List SwitchTable} {count count' : Nat}
    (h : (f.draft.labelling config).tableTargets (d.dataSections f).switchTables count = .ok (plain, count')) :
    ∀ p ∈ plain, p.Refers f.draft.records := by
  intro p hp
  refine ⟨fun label hlabel => ?_, fun id hid => ?_⟩
  · obtain ⟨pc, hpc⟩ := (Labelling.tableTargets_eq_ok h p hp).labels label hlabel
    exact ⟨pc, hf.labels pc label hpc⟩
  · obtain ⟨k, hk, rfl⟩ := List.getElem_of_mem hp
    have hsame := Labelling.tableTargets_same h
    have hk' := hsame.length_eq ▸ hk
    have htable := hsame.get hk' hk
    have hanchor : plain[k].anchor = (d.dataSections f).switchTables[k].anchor := congrArg (·.anchor) htable
    obtain ⟨n, hn⟩ := anchor_switchTables (List.getElem_mem hk')
    rw [hanchor, hn] at hid
    obtain ⟨i, hi, hlive, -⟩ := hf.anchors n id (Labelling.mem_of_lookup hid)
    exact ⟨i, hi, hlive⟩

section Placed
variable {d : Description} {config : Config} {f : Filling} {u u₁ : MethodUnit} {cases : InstrId → List InstrId}
  {plain : List SwitchTable} {count : Nat}

/-- The data of a unit whose switches are resolved can be installed. -/
theorem Filled.installable (h : Filled d config f u) (hfills : ∀ a ∈ f.fillArrays, a.Accepted)
    (hplain : (f.draft.labelling config).tableTargets (d.dataSections f).switchTables f.draft.records.length =
      .ok (plain, count))
    (h₁ : MethodUnit.Resolving u (keptIds config.retainNops f.draft.records) cases u₁)
    (hred : List.Forall₂ (Redirected cases) plain u₁.data.switchTables) : u₁.data.Installable u₁.list := by
  have hdata : u₁.data = { d.dataSections f with switchTables := u₁.data.switchTables } := by rw [h₁.same, h.same]
  refine ⟨?_, ?_, fun t ht => ?_, ?_⟩
  · rw [hdata]
    exact h.draft.data.codePointers.tagged
  · rw [hdata]
    exact h.draft.data.methodPointers.tagged
  · rw [← h.tableTargets_eq] at hplain
    obtain ⟨k, hk, rfl⟩ := List.getElem_of_mem ht
    have hk' : k < plain.length := hred.length_eq ▸ hk
    exact SwitchTable.Resolved.of_redirected h.labelsAllocated h₁
      (Labelling.tableTargets_eq_ok hplain _ (List.getElem_mem hk')) (hred.get hk' hk)
  · rw [hdata]
    exact fun a ha => (hfills a ha).units_le

/-- Assigning the offsets of a unit whose switches are resolved follows the layout of its records. -/
theorem Filled.assignOffsets_follows (h : Filled d config f u) (hfills : ∀ a ∈ f.fillArrays, a.Accepted)
    (hplain : (f.draft.labelling config).tableTargets (d.dataSections f).switchTables f.draft.records.length =
      .ok (plain, count))
    (h₁ : MethodUnit.Resolving u (keptIds config.retainNops f.draft.records) cases u₁)
    (hred : List.Forall₂ (Redirected cases) plain u₁.data.switchTables) :
    Stateful.Follows (laidOut 4 (numbered f.draft.records) { d.dataSections f with switchTables := plain })
      (fun (stamped, data, layout) _ u₂ => u.Placed stamped data layout u₂)
      (MethodUnit.assignOffsets (.fixedWidth 4) u₁) := by
  have hdata : u₁.data = { d.dataSections f with switchTables := u₁.data.switchTables } := by rw [h₁.same, h.same]
  have hentries : u₁.list.entries.filter isPlain = (numbered f.draft.records).filter isPlain := by
    rw [h₁.list.links.entries_eq]
    exact (h₁.list.filter_named h.list.links).trans (filter_keptIds h.list.contents _)
  have hnops : ∀ i ∈ u₁.list.contents, i.isNop = true → i.opcode ≠ .pseudo .align4 := by
    obtain ⟨added, hadded, hlabels⟩ := h₁.list.contents
    intro i hi hn
    rw [hadded, h.list.contents] at hi
    rcases List.mem_append.mp hi with hi | hi
    · exact h.draft.opcode_of_nop hi hn
    · rw [hlabels i hi]
      exact nofun
  have hidle : ∀ e ∈ u₁.list.entries, isPlain e = false → FixedWidth.isIdle e.2 = true := by
    rintro ⟨id, i⟩ hmem hplain
    rw [h₁.list.links.entries_eq] at hmem
    exact isIdle_of_not_plain hplain (hnops i (List.mem_of_getElem? (FixedWidth.mem_named.mp hmem).2))
  have hidle' : ∀ e ∈ numbered f.draft.records, isPlain e = false → FixedWidth.isIdle e.2 = true := by
    rintro ⟨id, i⟩ hmem hplain
    exact isIdle_of_not_plain hplain (h.draft.opcode_of_nop (List.mem_of_getElem? (mem_numbered.mp hmem)))
  have hagree := @laidOut_agree 4 _ _ { d.dataSections f with switchTables := plain } _ _ hentries hidle hidle' hdata hred
  have hinstallable := h.installable hfills hplain h₁ hred
  refine ((MethodUnit.assignOffsets_follows h₁.list.links).agree hagree).known.mono ?_
  rintro ⟨stamped, data, layout⟩ _ u₂ ⟨hlaid, ⟨_, data₂, _⟩, hlaid₂, ⟨hfilter, rfl, hdata₂, htables⟩, rfl, rfl, hkept, hu₂⟩
  obtain ⟨codeSize, hcode, hassign⟩ := laidOut_eq_ok.mp hlaid
  obtain ⟨codeSize₂, hcode₂, hassign₂⟩ := laidOut_eq_ok.mp hlaid₂
  have hu₂data : u₂.data = data₂ := by rw [hu₂]
  refine ⟨hfilter, ?_, ?_, ⟨_, MethodUnit.ascends_of_laidOut hinstallable hlaid₂ rfl hu₂data (by rw [hu₂])⟩, ?_⟩
  · -- a layout moves tables but leaves their targets and anchors
    have hrefers : ∀ p ∈ data.switchTables, p.Refers f.draft.records := by
      intro p hp
      obtain ⟨_, _, _, _, hspread⟩ := DataSections.spread_of_assign hassign
      obtain ⟨p₀, hp₀, o, rfl⟩ := mem_arrange hspread.switchTables hp
      have hp₀ := refers_of_tableTargets h.draft hplain p₀ hp₀
      exact ⟨hp₀.targets, hp₀.anchor⟩
    rw [hu₂data]
    refine ((List.forall₂_and_left _ _).mpr ⟨hrefers, htables⟩).imp fun p t hpt => ?_
    exact matches_of_redirected h.list.contents h₁.list (hkept.links _ h₁.list.links) hcode₂ hcode hfilter hpt.1 hpt.2
  · rw [hu₂data]
    exact hinstallable.assign hassign₂ (Nat.le_of_eq hkept.size.symm)
  · rw [hu₂data, ← hdata₂, hu₂, h₁.same]

end Placed

end Description

/-! ### Image and tables -/

/-- Everything that the image of a laid-out method holds, at its place. -/
def placedBytes (stamped : List (InstrId × Instruction)) (data : DataSections) (layout : DataLayout)
    (origin : BranchOrigin) : List Placement :=
  FixedWidth.placements 4 stamped ++ data.placements layout (SwitchTable.image (.ofRecords (stamped.map (·.2))) origin)

/-- The markers among some entries. -/
def markersOf (entries : List (InstrId × Instruction)) : List (MappingKind × MappingEntry) :=
  entries.filterMap fun (_, i) => i.mappingKind.map fun kind => (kind, i.mappingEntry)

/-- The table that markers call for. -/
def MappingTable.ofMarkers (markers : List (MappingKind × MappingEntry)) : MappingTable :=
  ⟨entriesOf .pcToDex markers, entriesOf .dexToPc markers⟩

theorem InstrList.markers_eq (l : InstrList) : l.markers.map (·.2) = markersOf l.entries := by
  simp [InstrList.markers, markersOf, List.map_filterMap, Function.comp_def]

theorem placements_plain {width : UInt32} {entries entries' : List (InstrId × Instruction)}
    (h : entries.filter isPlain = entries'.filter isPlain) :
    FixedWidth.placements width entries = FixedWidth.placements width entries' := by
  refine filterMap_plain (fun e he => ?_) h
  cases hn : e.2.isNop with
  | true => simp [FixedWidth.placement?, hn]
  | false =>
    have hop : e.2.opcode = .pseudo .caseLabel := by simpa [isPlain, hn] using he
    simp [FixedWidth.placement?, hop]

theorem markersOf_plain {entries entries' : List (InstrId × Instruction)}
    (h : entries.filter isPlain = entries'.filter isPlain) : markersOf entries = markersOf entries' := by
  refine filterMap_plain (fun e he => ?_) h
  cases hn : e.2.isNop with
  | true => simp [Instruction.mappingKind, hn]
  | false =>
    have hop : e.2.opcode = .pseudo .caseLabel := by simpa [isPlain, hn] using he
    simp [Instruction.mappingKind, hop]

namespace MethodUnit
variable {u₀ u : MethodUnit} {stamped : List (InstrId × Instruction)} {data : DataSections} {layout : DataLayout}

theorem Placed.placements_eq (h : Placed u₀ stamped data layout u) :
    u.placements 4 = placedBytes stamped data layout u₀.config.branchOrigin := by
  have horigin : u.config.branchOrigin = u₀.config.branchOrigin := by rw [h.same]
  have hlayout : u.layout = layout := by rw [h.same]
  have hdata : u.data = { data with switchTables := u.data.switchTables } := by rw [h.same]
  rw [placements, placedBytes, placements_plain h.entries, horigin, hlayout]
  simp only [DataSections.placements]
  rw [placements_tables _ h.tables, hdata]

/-- Writing the image of a laid-out unit stops only where the origin of a table cannot be told. -/
theorem Placed.install_follows (h : Placed u₀ stamped data layout u) :
    Stateful.Follows (checkOrigins (.ofRecords (stamped.map (·.2))) u₀.config.branchOrigin data.switchTables)
      (fun _ _ u' => u'.code = Bytes.putAll #[] (placedBytes stamped data layout u₀.config.branchOrigin) ∧
        u'.patches.toList = u₀.patches.toList ++ data.patches u₀.context ∧
        u' = { u with code := u'.code, patches := u'.patches, events := u'.events })
      (install (.fixedWidth 4) u) := by
  obtain ⟨stop, hascends⟩ := h.ascends
  have hinstall := MethodUnit.install_follows h.installable hascends
  have horigin : u.config.branchOrigin = u₀.config.branchOrigin := by rw [h.same]
  have hpatches : u.patches.toList ++ u.data.patches u.context = u₀.patches.toList ++ data.patches u₀.context := by
    rw [h.same]
    rfl
  rwa [checkOrigins_eq _ h.tables, h.placements_eq, horigin, hpatches] at hinstall

/-- What a check of the mapping table finds, if one is asked for. -/
def findings (config : Config) (markers : List (MappingKind × MappingEntry)) (catches : List UInt32) : List Diagnostic :=
  if config.verifyTables then (MappingTable.ofMarkers markers).checkCatches catches else []

/-- A mapping table that can be made passes its check. -/
theorem createMappingTable_follows (u : MethodUnit) :
    Stateful.Follows (MappingTable.encode (markersOf u.list.entries))
      (fun built _ u' => u' = { u with
        mappingTable := built.table, events := u'.events,
        diagnostics := u.diagnostics ++ findings u.config (markersOf u.list.entries) u.catches })
      (createMappingTable u) := by
  have hmarkers : MappingTable.create u.list = MappingTable.encode (markersOf u.list.entries) := by
    rw [MappingTable.create, u.list.markers_eq]
  rw [createMappingTable, Stateful.get_bind_run, ← hmarkers]
  refine (Stateful.Follows.lift (MappingTable.create u.list) u).known.bind_ok ?_
  rintro built _ t ⟨hbuilt, rfl, rfl⟩
  have hdecode := MappingTable.decode_encode (hmarkers ▸ hbuilt)
  simp only [report, Stateful.modify_bind_run, Stateful.get_bind_run]
  cases hv : t.config.verifyTables with
  | false => exact ⟨_, _, rfl, by simp [findings, hv]⟩
  | true =>
    simp only [if_true, MappingTable.verify_create hbuilt, hdecode, Stateful.lift_ok_bind_run, Stateful.modify_bind_run]
    exact ⟨_, _, rfl, by simp [findings, hv, MappingTable.ofMarkers]⟩

theorem createReferenceMap_follows (live : VerifierMap) (u : MethodUnit) :
    Stateful.Follows (ReferenceMap.create u.mappingTable live)
      (fun built _ u' => u' = { u with referenceMap := built.table, events := u'.events })
      (createReferenceMap live u) := by
  rw [createReferenceMap, Stateful.get_bind_run]
  refine (Stateful.Follows.lift (ReferenceMap.create u.mappingTable live) u).bind_ok ?_
  rintro built _ t ⟨rfl, rfl⟩
  exact ⟨_, _, rfl, rfl⟩

theorem exists_listing (h : ∃ bytes, u.data.estimatedSize = .ok bytes) : ∃ lines, u.listing = .ok lines :=
  Checked.exists_bind h fun _ => ⟨_, rfl⟩

/-- The end of an assembly: the method is made of what the unit holds, and reported. -/
theorem compiled_follows (events : MethodUnit → CompiledMethod → List Event) (u : MethodUnit) :
    Stateful.Follows (u.compiled.map fun method => { method, patches := u.patches, diagnostics := u.diagnostics })
      (fun (out : MethodOutput) method (u' : MethodUnit) =>
        out = { method, patches := u'.patches, diagnostics := u'.diagnostics })
      ((MonadState.get >>= fun u : MethodUnit => liftM u.compiled >>= fun method =>
        report (events u method) >>= fun _ => pure method) u) := by
  rw [Stateful.get_bind_run]
  cases u.compiled with
  | error e => rfl
  | ok method => exact ⟨_, rfl, rfl⟩

end MethodUnit

/-- Data that were laid out fit in 32 bits, and so does what their literals are expected to take. -/
theorem DataSections.exists_estimatedSize {s d : DataSections} {codeSize : UInt32} {layout : DataLayout}
    (h : s.assign codeSize 4 = .ok (d, layout)) (hw : s.words.Estimated) (hc : s.codePointers.Estimated)
    (hm : s.methodPointers.Estimated) : ∃ bytes, d.estimatedSize = .ok bytes := by
  have htotal := assign_totalSize h
  have hlt := layout.totalSize.toNat_lt
  obtain ⟨_, _, _, _, hspread⟩ := spread_of_assign h
  rw [bytes] at htotal
  rw [LiteralPool.Estimated] at hw hc hm
  obtain ⟨pointers, hpointers, hvalue⟩ := addWords_of_lt
    (show s.words.estimatedSize.toNat + s.codePointers.estimatedSize.toNat < 2 ^ 32 by omega)
  obtain ⟨all, hall, -⟩ := addWords_of_lt
    (show pointers.toNat + s.methodPointers.estimatedSize.toNat < 2 ^ 32 by omega)
  refine ⟨all, ?_⟩
  rw [estimatedSize, hspread.words.estimatedSize, hspread.codePointers.estimatedSize, hspread.methodPointers.estimatedSize,
    hpointers, Checked.ok_bind, hall]

/-! ### The whole -/

namespace Description

/-- The registers that hold references, as the verifier found them. -/
def liveness (d : Description) : Checked VerifierMap := d.verifierMap >>= VerifierMap.ofBytes

/-- The compiled method, given its layout and tables. -/
def output (d : Description) (config : Config) (frameSize : UInt32) (stamped : List (InstrId × Instruction))
    (data : DataSections) (layout : DataLayout) (mappingTable referenceMap vmapTable : Bytes) : MethodOutput where
  method := {
    instructionSet := config.instructionSet
    code := Bytes.putAll #[] (placedBytes stamped data layout config.branchOrigin)
    frameSize
    coreSpillMask := d.frame.coreSpillMask
    fpSpillMask := d.frame.fpSpillMask
    mappingTable
    vmapTable
    referenceMap }
  patches := (data.patches d.context).toArray
  diagnostics := MethodUnit.findings config (markersOf stamped) d.sortedCatches

end Description

/-- A method whose records and data have their offsets. -/
structure Laid where
  filling : Filling
  live : VerifierMap
  /-- The switch tables with their targets, before they got offsets. -/
  tables : List SwitchTable
  stamped : List (InstrId × Instruction)
  data : DataSections
  layout : DataLayout

/-- Image and tables, read off the layout of a method. -/
def Laid.finish (l : Laid) (d : Description) (config : Config) : Checked MethodOutput := do
  checkOrigins (.ofRecords (l.stamped.map (·.2))) config.branchOrigin l.data.switchTables
  let mapping ← MappingTable.encode (markersOf l.stamped)
  let references ← ReferenceMap.create mapping.table l.live
  let vmapTable ← VmapTable.build d.coreVmap d.fpVmap l.filling.frameSize d.frame
  return d.output config l.filling.frameSize l.stamped l.data l.layout mapping.table references.table vmapTable

namespace Description

/-- The layout of a description. -/
def lay (d : Description) (config : Config) : Checked Laid := do
  let filling ← d.filling config.maxInstructions
  let live ← d.liveness
  let (tables, _) ← (filling.draft.labelling config).tableTargets (d.dataSections filling).switchTables
    filling.draft.records.length
  let (stamped, data, layout) ←
    laidOut 4 (numbered filling.draft.records) { d.dataSections filling with switchTables := tables }
  return { filling, live, tables, stamped, data, layout }

/-- What compiling a description comes to. -/
def outline (d : Description) (config : Config) : Checked MethodOutput := do (← d.lay config).finish d config

/-- The first half of an assembly: the unit is filled, and its records and data get their offsets. -/
def prepare (d : Description) : UnitM VerifierMap := do
  d.fill
  let live ← VerifierMap.ofBytes (← d.verifierMap)
  MethodUnit.resolveSwitches
  let _ ← MethodUnit.assignOffsets (.fixedWidth 4)
  return live

theorem assemble_eq (d : Description) : d.assemble = d.prepare >>= MethodUnit.complete (.fixedWidth 4) := by
  simp only [assemble, prepare, MethodUnit.materialize, bind_assoc, pure_bind]

/-- A unit that the first half of an assembly leaves: it was filled, and then laid out. -/
structure Prepared (d : Description) (config : Config) (l : Laid) (u : MethodUnit) : Prop where
  laid : laidOut 4 (numbered l.filling.draft.records) { d.dataSections l.filling with switchTables := l.tables } =
    .ok (l.stamped, l.data, l.layout)
  placed : ∃ u₀, Filled d config l.filling u₀ ∧ u₀.Placed l.stamped l.data l.layout u

theorem prepare_follows (d : Description) (config : Config) :
    Stateful.Follows (d.lay config) (fun l live u => live = l.live ∧ d.Prepared config l u)
      (d.prepare (.new config d.context)) := by
  rw [lay, prepare, liveness]
  refine (fill_follows d config).known.bind ?_
  rintro f _ u ⟨hfilling, hfilled⟩
  rw [bind_assoc]
  refine (Stateful.Follows.lift d.verifierMap u).bind ?_
  rintro _ bytes _ ⟨rfl, rfl⟩
  refine (Stateful.Follows.lift (VerifierMap.ofBytes bytes) _).bind ?_
  rintro _ live u ⟨rfl, rfl⟩
  have hresolve := MethodUnit.resolveSwitches_follows hfilled.list.links hfilled.labelsAllocated
  rw [hfilled.tableTargets_eq] at hresolve
  refine hresolve.known.bind ?_
  rintro ⟨tables, count⟩ _ u₁ ⟨htables, -, cases, h₁, hred⟩
  refine (hfilled.assignOffsets_follows (accepted_of_filling hfilling) htables h₁ hred).known.bind ?_
  rintro ⟨stamped, data, layout⟩ _ u₂ ⟨hlaid, h₂⟩
  exact ⟨_, rfl, rfl, hlaid, u, hfilled, h₂⟩

/-- A unit that holds all of a laid-out method but its tables. -/
structure Installed (d : Description) (config : Config) (l : Laid) (u : MethodUnit) : Prop where
  code : u.code = Bytes.putAll #[] (placedBytes l.stamped l.data l.layout config.branchOrigin)
  patches : u.patches = (l.data.patches d.context).toArray
  markers : markersOf u.list.entries = markersOf l.stamped
  estimate : ∃ bytes, u.data.estimatedSize = .ok bytes
  same : u = { MethodUnit.new config d.context with
    list := u.list, data := u.data, blockLabels := u.blockLabels, catches := d.sortedCatches
    coreVmap := d.coreVmap, fpVmap := d.fpVmap, frame := d.frame, frameSize := l.filling.frameSize
    layout := u.layout, code := u.code, patches := u.patches, events := u.events }

theorem Prepared.install_follows {d : Description} {config : Config} {l : Laid} {u : MethodUnit}
    (h : d.Prepared config l u) :
    Stateful.Follows (checkOrigins (.ofRecords (l.stamped.map (·.2))) config.branchOrigin l.data.switchTables)
      (fun _ _ u' => d.Installed config l u') (MethodUnit.install (.fixedWidth 4) u) := by
  obtain ⟨u₀, hfilled, hplaced⟩ := h.placed
  have hinstall := hplaced.install_follows
  rw [show u₀.config = config by rw [hfilled.same]; rfl] at hinstall
  refine hinstall.mono ?_
  rintro _ _ u' ⟨hcode, hpatches, hu'⟩
  refine ⟨hcode, ?_, ?_, ?_, ?_⟩
  · rw [← Array.toList_inj, hpatches, hfilled.same]
    rfl
  · -- Markers are plain entries, so the list has those of the layout.
    rw [show u'.list = u.list by rw [hu'], markersOf_plain hplaced.entries]
  · obtain ⟨codeSize, -, hassign⟩ := laidOut_eq_ok.mp h.laid
    have hliterals := hfilled.draft.data
    have hestimate := DataSections.exists_estimatedSize hassign hliterals.wordsEstimated hliterals.codesEstimated
      hliterals.methodsEstimated
    rw [hu', hplaced.same]
    exact hestimate
  · rw [hu', hplaced.same, hfilled.same]

theorem Prepared.complete_follows {d : Description} {config : Config} {l : Laid} {u : MethodUnit}
    (h : d.Prepared config l u) :
    Stateful.Follows (l.finish d config)
      (fun out method u' => out = { method, patches := u'.patches, diagnostics := u'.diagnostics })
      (MethodUnit.complete (.fixedWidth 4) l.live u) := by
  rw [Laid.finish, MethodUnit.complete]
  refine h.install_follows.bind ?_
  rintro _ _ u₃ h₃
  have hmapping := MethodUnit.createMappingTable_follows u₃
  rw [h₃.markers] at hmapping
  refine hmapping.bind ?_
  rintro mapping _ u₄ hu₄
  have hreferences := MethodUnit.createReferenceMap_follows l.live u₄
  rw [show u₄.mappingTable = mapping.table by rw [hu₄]] at hreferences
  refine hreferences.bind ?_
  rintro references _ u₅ hu₅
  -- all that the method is made of has been in the unit since it was installed, or was put there by a stage above
  have hout : (VmapTable.build d.coreVmap d.fpVmap l.filling.frameSize d.frame >>= fun vmapTable =>
      pure (d.output config l.filling.frameSize l.stamped l.data l.layout mapping.table references.table vmapTable)) =
      u₅.compiled.map fun method => { method, patches := u₅.patches, diagnostics := u₅.diagnostics } := by
    simp only [output]
    rw [← h₃.code, ← h₃.patches, hu₅, hu₄, h₃.same]
    simp only [MethodUnit.compiled, MethodUnit.new]
    cases VmapTable.build d.coreVmap d.fpVmap l.filling.frameSize d.frame <;> rfl
  rw [Stateful.get_bind_run, hout]
  split
  · obtain ⟨lines, hlines⟩ := MethodUnit.exists_listing (u := u₅) (by rw [hu₅, hu₄]; exact h₃.estimate)
    have hreport : MethodUnit.report lines u₅ = .ok () { u₅ with events := u₅.events ++ lines } := rfl
    rw [Stateful.get_bind_run, hlines, Stateful.lift_ok_bind_run, Stateful.bind_of_ok hreport]
    exact MethodUnit.compiled_follows _ { u₅ with events := u₅.events ++ lines }
  · exact MethodUnit.compiled_follows _ u₅

theorem assemble_follows (d : Description) (config : Config) :
    Stateful.Follows (d.outline config)
      (fun out method u => out = { method, patches := u.patches, diagnostics := u.diagnostics })
      (d.assemble (.new config d.context)) := by
  rw [outline, assemble_eq]
  refine (prepare_follows d config).bind ?_
  rintro l _ u ⟨rfl, h⟩
  exact h.complete_follows

/-- A description compiles as its outline says. -/
theorem compile_outcome (d : Description) (config : Config) :
    (d.compile config).outcome = d.outline (d.configure config) := by
  have h := d.assemble_follows (d.configure config)
  rw [compile]
  split
  · rename_i method u hrun
    obtain ⟨out, hout, rfl⟩ := h.ok hrun
    exact hout.symm
  · rename_i e u hrun
    rw [hrun] at h
    exact Eq.symm h

/-- A method with a dispatch, a nop, a call and an exported handler. -/
def sample : Description where
  name := "sample"
  instructions := [.label 0, .switch 0x10 1 0, .op 0x22 2 [] true, .label 5, .call 0x33 6 [], .exportPc 7]
  switches := [.packed 1 10 [4]]
  catches := [7]
  frame := { registers := 10 }
  references := [⟨6, [0, 9]⟩]

theorem exists_compile_sample : ∃ out, (sample.compile {}).outcome = .ok out :=
  Checked.exists_of_isOk (by decide +kernel)

/-- A method with three calls, which return to the addresses 8, 12 and 16. References are stated twice for the first of
    them, and none are live behind the last. -/
def threeCalls : Description where
  name := "calls"
  instructions := [.op 0x22 0 [] false, .call 0x33 1 [], .op 0x22 2 [] true, .invokeCode 0x44 3 7 .direct,
    .invokeMethod 0x55 5 9 .virtual]
  frame := { registers := 10 }
  references := [⟨5, []⟩, ⟨1, [0, 9]⟩, ⟨3, [4]⟩, ⟨1, [2]⟩]

/-- The first and the last call ask for the same slot, so the last one goes around the end and past the second. -/
theorem exists_compile_threeCalls : ∃ out m, (threeCalls.compile {}).outcome = .ok out ∧
    ReferenceMap.ofBytes out.method.referenceMap = .ok m ∧ (List.range m.size).mapM m.offsetAt = .ok [12, 16, 8] := by
  have hread : ((threeCalls.compile {}).outcome >>= fun out => ReferenceMap.ofBytes out.method.referenceMap >>= fun m =>
      (List.range m.size).mapM m.offsetAt) = .ok [12, 16, 8] := by decide +kernel
  obtain ⟨out, hout, hread⟩ := Checked.bind_eq_ok.mp hread
  obtain ⟨m, hm, hslots⟩ := Checked.bind_eq_ok.mp hread
  exact ⟨out, m, hout, hm, hslots⟩

end Description

end MethodAssembler
