import Mathlib.Algebra.Order.BigOperators.Group.List
import Mathlib.Algebra.Order.Ring.Nat
import MethodAssembler.Proofs.Acceptance.Switches
import MethodAssembler.Proofs.ReferenceMap.Native

/-! # Which descriptions compile

If its records and the bytes of its image can be counted in 32 bits, compiling a description never traps, and it succeeds
exactly if the description is accepted: a list of conditions on the description alone, which name no step of the
compilation. -/

namespace MethodAssembler

theorem map_returnAddresses (before : Nat) (items : List StreamItem) :
    (returnAddresses before items).map (·.2) = items.filterMap StreamItem.callPc? := by
  induction items generalizing before with
  | nil => rfl
  | cons item items ih =>
    rw [returnAddresses, List.map_append, ih, List.filterMap_cons]
    cases item.callPc? <;> rfl

/-! ### Tables of switches -/

theorem forall_mem_congr {α β γ : Type} {xs : List α} {ys : List β} {g : α → γ} {k : β → γ} (P : γ → Prop)
    (h : xs.map g = ys.map k) : (∀ x ∈ xs, P (g x)) ↔ ∀ y ∈ ys, P (k y) := by
  rw [← List.forall_mem_map, h, List.forall_mem_map]

section Tables
variable {anchors : Anchors} {number : Nat} {switches : List SwitchDescription}

theorem Description.map_switchTables (anchors : Anchors) (number : Nat) (switches : List SwitchDescription) :
    (Description.switchTables anchors number switches).map (fun t => (t.payload, t.dexPc)) =
      switches.map fun s => (s.payload, s.dexPc) := by
  induction switches generalizing number with
  | nil => rfl
  | cons s switches ih => rw [Description.switchTables, List.map_cons, List.map_cons, ih]

theorem Description.map_payload_switchTables {β : Type} (g : SwitchPayload → β) :
    (Description.switchTables anchors number switches).map (fun t => g t.payload) = switches.map fun s => g s.payload := by
  have hmap := congrArg (List.map fun p => g p.1) (Description.map_switchTables anchors number switches)
  rwa [List.map_map, List.map_map] at hmap

theorem Description.forall_switchTables {P : SwitchPayload → UInt32 → Prop} :
    (∀ t ∈ Description.switchTables anchors number switches, P t.payload t.dexPc) ↔ ∀ s ∈ switches, P s.payload s.dexPc :=
  forall_mem_congr (fun p => P p.1 p.2) (Description.map_switchTables anchors number switches)

theorem Description.anchor_ne_none_iff : (∀ t ∈ Description.switchTables anchors number switches, t.anchor ≠ none) ↔
    ∀ n < switches.length, (anchors.lookup (number + n)).isSome = true := by
  induction switches generalizing number with
  | nil => exact ⟨fun _ _ h => absurd h (Nat.not_lt_zero _), fun _ _ h => absurd h List.not_mem_nil⟩
  | cons s switches ih =>
    rw [Description.switchTables, List.forall_mem_cons, ih, List.length_cons, Nat.forall_lt_succ_left]
    simp only [Option.isSome_iff_ne_none, Nat.add_zero, Nat.add_assoc, Nat.add_comm 1]

theorem map_of_same {β : Type} {g : SwitchTable → β} (hg : ∀ t targets, g { t with targets } = g t)
    {tables plain : List SwitchTable} (h : List.Forall₂ (fun t p => p = { t with targets := p.targets }) tables plain) :
    plain.map g = tables.map g := by
  induction h with
  | nil => rfl
  | cons hp _ ih => rw [List.map_cons, List.map_cons, ih, hp, hg]

theorem DataSections.map_assign_tables {β : Type} {g : SwitchTable → β} (hg : ∀ t offset, g { t with offset } = g t)
    {data laid : DataSections} {codeSize : UInt32} {layout : DataLayout}
    (h : data.assign codeSize 4 = .ok (laid, layout)) : laid.switchTables.map g = data.switchTables.map g := by
  obtain ⟨_, _, _, _, hspread⟩ := spread_of_assign h
  exact map_arrange hg hspread.switchTables

end Tables

/-! ### Sizes -/

/-- A frame that is not empty may hold any spills. -/
theorem VmapTable.build_of_pos {frameSize : UInt32} (h : 0 < frameSize) (core fp : List UInt32) (frame : Frame) :
    ∃ bytes, build core fp frameSize frame = .ok bytes := by
  simp [build, h]

namespace Description
variable {d : Description} {config : Config} {f : Filling}

/-- How many records an assembly allocates: those of the stream and, if it is verbose, a label for each case. -/
def recordCount (d : Description) (verbose : Bool) : Nat :=
  (d.instructions.map StreamItem.recordCount).sum + verbose.toNat * (d.switches.map (·.payload.size)).sum

/-- The size of the image: the code, the literals, the switch tables and the fill-array data. -/
def imageSize (d : Description) : Nat :=
  4 * machineCount d.instructions + literalBytes d.instructions +
    (d.switches.map fun s => s.payload.size * s.payload.caseBytes).sum + (d.fillArrays.map fun f => roundUp f.size 4).sum

theorem Fills.length_records (h : d.Fills f) :
    f.draft.records.length = (d.instructions.map StreamItem.recordCount).sum := by
  rw [h.draft.records, length_flatMap_records]

theorem Fills.liveCount (h : d.Fills f) :
    FixedWidth.liveCount (numbered f.draft.records) = machineCount d.instructions := by
  rw [liveCount_eq, map_numbered, h.draft.records, countP_flatMap_records]

theorem map_tableBytes {tables : List SwitchTable}
    (h : tables.map (·.payload) = (d.dataSections f).switchTables.map (·.payload)) :
    (tables.map fun t => t.payload.size * t.payload.caseBytes) =
      d.switches.map fun s => s.payload.size * s.payload.caseBytes := by
  have hsizes := congrArg (List.map fun p => p.size * p.caseBytes) h
  rw [List.map_map, List.map_map] at hsizes
  exact hsizes.trans (map_payload_switchTables fun p => p.size * p.caseBytes)

theorem Fills.bytes (h : d.Fills f) {tables : List SwitchTable}
    (htables : tables.map (·.payload) = (d.dataSections f).switchTables.map (·.payload)) :
    4 * machineCount d.instructions + ({ d.dataSections f with switchTables := tables } : DataSections).bytes =
      d.imageSize := by
  have hfills : (f.fillArrays.map fun a => roundUp a.size.toNat 4) = d.fillArrays.map fun a => roundUp a.size 4 := by
    have hsizes := congrArg (List.map fun n => roundUp n 4) h.fillArrays
    rwa [List.map_map, List.map_map] at hsizes
  rw [imageSize, h.draft.data.literalBytes_eq, ← map_tableBytes htables, ← hfills]
  simp only [DataSections.bytes, dataSections]
  omega

/-- An image that fits can be laid out. -/
theorem Fills.laidOut_of_lt (h : d.Fills f) (hlt : d.imageSize < 2 ^ 32) {tables : List SwitchTable}
    (htables : tables.map (·.payload) = (d.dataSections f).switchTables.map (·.payload)) :
    ∃ r, laidOut 4 (numbered f.draft.records) { d.dataSections f with switchTables := tables } = .ok r := by
  rw [← h.bytes htables] at hlt
  have hzero : 4 ∣ (0 : UInt32).toNat := Nat.dvd_zero 4
  have hcode : (0 : UInt32).toNat + 4 * FixedWidth.liveCount (numbered f.draft.records) =
      4 * machineCount d.instructions := by
    rw [h.liveCount]
    exact Nat.zero_add _
  obtain ⟨stamped, codeSize, hlayout⟩ := FixedWidth.layOut_four_of_lt hzero (by rw [hcode]; omega)
  have hsize : codeSize.toNat = 4 * machineCount d.instructions :=
    (FixedWidth.layOut_four_stop hzero hlayout).trans hcode
  have hround : roundUp codeSize.toNat 4 = codeSize.toNat :=
    roundUp_of_dvd (by decide) (hsize ▸ Nat.dvd_mul_right 4 _)
  obtain ⟨laid, layout, hassign⟩ := DataSections.assign_of_lt (by rw [hround, hsize]; exact hlt)
  exact ⟨_, laidOut_eq_ok.mpr ⟨codeSize, hlayout, hassign⟩⟩

/-! ### Steps -/

theorem Fills.tableTargets_decides (h : d.Fills f)
    (hw : Within config.maxInstructions (d.instructions.map StreamItem.recordCount).sum) :
    Checked.Decides ((∀ s ∈ d.switches, ∀ i < s.payload.size, s.payload.HasLabel d.instructions s.dexPc i) ∧
        Within config.maxInstructions (d.recordCount config.verbose))
      (fun _ => True)
      ((f.draft.labelling config).tableTargets (d.dataSections f).switchTables f.draft.records.length) := by
  rw [← h.length_records] at hw
  have hreadable : ∀ t ∈ (d.dataSections f).switchTables, t.payload.Readable :=
    (@forall_switchTables _ _ _ fun p _ => p.Readable).mpr fun s _ => s.readable_payload
  refine (Labelling.tableTargets_decides h.draft hreadable hw).congr ?_ fun _ _ _ => trivial
  have hlabels := @forall_switchTables f.draft.anchors 0 d.switches fun p pc => ∀ i < p.size, p.HasLabel d.instructions pc i
  have hcases := @map_payload_switchTables f.draft.anchors 0 d.switches _ SwitchPayload.size
  rw [recordCount, h.length_records, ← hcases, ← hlabels]
  rfl

theorem Fills.checkOrigins_decides (h : d.Fills f) {stamped : List (InstrId × Instruction)} {codeSize : UInt32}
    (hlayout : FixedWidth.layOut 4 (numbered f.draft.records) 0 = .ok (stamped, codeSize)) {tables : List SwitchTable}
    (htables : tables.map (·.anchor) = (d.dataSections f).switchTables.map (·.anchor)) (set : InstructionSet) :
    Checked.Decides (set ≠ .x86 → ∀ n < d.switches.length, ∃ opcode pc, StreamItem.switch opcode pc n ∈ d.instructions)
      (fun _ => True) (checkOrigins (.ofRecords (stamped.map (·.2))) set.branchOrigin tables) := by
  have hanchored : ∀ t ∈ tables, t.Anchored (.ofRecords (stamped.map (·.2))) := by
    intro t ht id hid
    obtain ⟨t₀, ht₀, hanchor⟩ := List.mem_map.mp (htables ▸ List.mem_map_of_mem ht)
    obtain ⟨n, hn⟩ := anchor_switchTables ht₀
    have hlookup : f.draft.anchors.lookup n = some id := by rw [← hn, hanchor, hid]
    obtain ⟨i, hi, hlive, hfixup⟩ := h.draft.anchors n id (Labelling.mem_of_lookup hlookup)
    obtain ⟨offset, hmem, hcontents⟩ := layOut_numbered hlayout hi
    refine ⟨_, hcontents, hfixup, ?_⟩
    -- A live target ends within the code, so four bytes past its offset can still be counted.
    have hend := (FixedWidth.layOut_le_stop hlayout).2 id _ hmem
    rw [FixedWidth.extent_of_live (show Instruction.isLiveTarget { i with offset } = true from hlive)] at hend
    exact Nat.lt_of_le_of_lt hend codeSize.toNat_lt
  have hnamed : (∀ t ∈ tables, t.anchor ≠ none) ↔
      ∀ n < d.switches.length, ∃ opcode pc, StreamItem.switch opcode pc n ∈ d.instructions := by
    refine (forall_mem_congr (· ≠ none) htables).trans ?_
    simp only [dataSections, anchor_ne_none_iff, Nat.zero_add, lookup_isSome_iff, h.draft.anchored]
  refine (MethodAssembler.checkOrigins_decides hanchored set).congr ?_ fun _ _ _ => trivial
  rw [hnamed]

/-- The PCs of the calls. -/
def callPcs (d : Description) : List UInt32 := d.instructions.filterMap StreamItem.callPc?

theorem Fills.dexPc_safepoints (h : d.Fills f) {stamped : List (InstrId × Instruction)} {codeSize : UInt32}
    (hlayout : FixedWidth.layOut 4 (numbered f.draft.records) 0 = .ok (stamped, codeSize)) :
    (MappingTable.entriesOf .pcToDex (markersOf stamped)).map (·.dexPc) = d.callPcs := by
  have hrecords : (numbered f.draft.records).map (·.2) = d.instructions.flatMap StreamItem.records := by
    rw [map_numbered, h.draft.records]
  have hsafepoints : _ = returnAddresses 0 d.instructions := safepoints_of_stream hrecords rfl hlayout
  have hpcs := congrArg (List.map Prod.snd) hsafepoints
  rwa [List.map_map, map_returnAddresses] at hpcs

theorem Fills.maps_decide (h : d.Fills f) {stamped : List (InstrId × Instruction)} {codeSize : UInt32}
    (hlayout : FixedWidth.layOut 4 (numbered f.draft.records) 0 = .ok (stamped, codeSize))
    (hlt : (d.instructions.map StreamItem.recordCount).sum < 2 ^ 32) {live : VerifierMap} {registers : Nat}
    (hlive : live.Answers d.references registers) (hregisters : registers ≤ 65528) :
    ∃ mapping, MappingTable.encode (markersOf stamped) = .ok mapping ∧
      Checked.Decides (d.callPcs.length < 2 ^ 16 ∧ ∀ pc ∈ d.callPcs, ∃ set ∈ d.references, set.dexPc = pc) (fun _ => True)
        (ReferenceMap.create mapping.table live) := by
  have hcount : (markersOf stamped).length < 2 ^ 32 := by
    have hids := congrArg List.length (FixedWidth.layOut_ids hlayout)
    have hnumbered := congrArg List.length (map_numbered f.draft.records)
    rw [List.length_map, List.length_map] at hids
    rw [List.length_map] at hnumbered
    exact Nat.lt_of_le_of_lt (MappingTable.length_markersOf_le stamped)
      (by rw [hids, hnumbered, h.length_records]; exact hlt)
  obtain ⟨mapping, hmapping⟩ := MappingTable.encode_of_ordered
    (fun kind => MappingTable.ordered_markersOf hlayout (Nat.le_refl _) kind)
    (by rw [MappingTable.length_entriesOf]; exact hcount)
  refine ⟨mapping, hmapping, ?_⟩
  refine (ReferenceMap.create_decides (MappingTable.decode_encode hmapping) hlive hregisters).congr ?_ fun _ _ _ => trivial
  rw [← h.dexPc_safepoints hlayout, List.length_map, List.forall_mem_map]

/-- What a description must satisfy to compile. -/
structure Accepted (d : Description) (config : Config) : Prop where
  switches : ∀ opcode pc table, StreamItem.switch opcode pc table ∈ d.instructions → table < d.switches.length
  records : ∀ most, config.maxInstructions = some most → d.recordCount config.verbose ≤ most
  frame : d.frame.words * 4 ≤ 2 ^ 32 - 16
  references : VerifierMap.Accepts d.references d.frame.registers.toNat
  cases : ∀ s ∈ d.switches, ∀ i < s.payload.size, s.payload.HasLabel d.instructions s.dexPc i
  dispatched : config.instructionSet ≠ .x86 →
    ∀ n < d.switches.length, ∃ opcode pc, StreamItem.switch opcode pc n ∈ d.instructions
  calls : d.callPcs.length < 2 ^ 16
  referenced : ∀ pc ∈ d.callPcs, ∃ set ∈ d.references, set.dexPc = pc

theorem outline_decides (horigin : config.switchOrigin = none) (hrecords : d.recordCount config.verbose < 2 ^ 32)
    (himage : d.imageSize < 2 ^ 32) : Checked.Decides (d.Accepted config) (fun _ => True) (d.outline config) := by
  have hbranch : config.branchOrigin = config.instructionSet.branchOrigin := by rw [Config.branchOrigin, horigin]; rfl
  have hliterals : literalBytes d.instructions < 2 ^ 32 := by
    rw [imageSize] at himage
    omega
  have hfills : ∀ a ∈ d.fillArrays, a.size < 2 ^ 32 := by
    intro a ha
    have hle : a.size ≤ roundUp a.size 4 := le_roundUp (by decide)
    have hmem : roundUp a.size 4 ∈ d.fillArrays.map fun a => roundUp a.size 4 := List.mem_map_of_mem ha
    have hsum := List.single_le_sum (fun _ _ => Nat.zero_le _) _ hmem
    rw [imageSize] at himage
    omega
  have hstream : (d.instructions.map StreamItem.recordCount).sum < 2 ^ 32 :=
    Nat.lt_of_le_of_lt (Nat.le_add_right _ _) hrecords
  -- Stage by stage, each adds the condition under which it goes through.
  have houtline : Checked.Decides
      (((∀ item ∈ d.instructions, item.Names d.switches.length) ∧
          Within config.maxInstructions (d.instructions.map StreamItem.recordCount).sum ∧
          d.frame.words * 4 ≤ Frame.maxBytes) ∧
        VerifierMap.Accepts d.references d.frame.registers.toNat ∧
        ((∀ s ∈ d.switches, ∀ i < s.payload.size, s.payload.HasLabel d.instructions s.dexPc i) ∧
          Within config.maxInstructions (d.recordCount config.verbose)) ∧
        (config.instructionSet ≠ .x86 →
          ∀ n < d.switches.length, ∃ opcode pc, StreamItem.switch opcode pc n ∈ d.instructions) ∧
        d.callPcs.length < 2 ^ 16 ∧ ∀ pc ∈ d.callPcs, ∃ set ∈ d.references, set.dexPc = pc)
      (fun _ => True) (d.outline config) := by
    simp only [outline, lay, Laid.finish, bind_assoc, Checked.pure_eq, Checked.ok_bind]
    refine (filling_decides hliterals hfills).bind fun f hfill hf => ?_
    refine (VerifierMap.verifierMap_decides d).bind fun live hlive hanswers => ?_
    refine (hf.tableTargets_decides hfill.2.1).known.bind fun r _ hr => ?_
    obtain ⟨tables, count⟩ := r
    have hsame := Labelling.tableTargets_same hr.1
    obtain ⟨⟨stamped, data, layout⟩, hlaid⟩ := hf.laidOut_of_lt himage (map_of_same (fun _ _ => rfl) hsame)
    obtain ⟨codeSize, hlayout, hassign⟩ := laidOut_eq_ok.mp hlaid
    have hanchors : data.switchTables.map (·.anchor) = (d.dataSections f).switchTables.map (·.anchor) :=
      (DataSections.map_assign_tables (fun _ _ => rfl) hassign).trans (map_of_same (fun _ _ => rfl) hsame)
    obtain ⟨mapping, hmapping, hcreate⟩ := hf.maps_decide hlayout hstream hanswers hlive.registers
    obtain ⟨vmapTable, hvmap⟩ := VmapTable.build_of_pos hf.frameSize d.coreVmap d.fpVmap d.frame
    dsimp only
    -- Layout, mapping table and register table cannot fail here, so only the stages between them decide.
    rw [hlaid, Checked.ok_bind, hbranch]
    refine (hf.checkOrigins_decides hlayout hanchors config.instructionSet).bind fun _ _ _ => ?_
    rw [hmapping, Checked.ok_bind]
    simp only [hvmap, Checked.ok_bind]
    exact hcreate.bind_ok fun _ _ _ => trivial
  refine houtline.congr ⟨?_, ?_⟩ fun _ _ _ => trivial
  · rintro ⟨⟨hnames, -, hframe⟩, haccepts, ⟨hcases, hwithin⟩, hdispatched, hcalls, hreferenced⟩
    exact ⟨fun _ _ _ hmem => hnames _ hmem, hwithin, hframe, haccepts, hcases, hdispatched, hcalls, hreferenced⟩
  · intro h
    have hnames : ∀ item ∈ d.instructions, item.Names d.switches.length := by
      intro item hitem
      cases item with
      | switch opcode pc table => exact h.switches opcode pc table hitem
      | label | op | call | invokeCode | invokeMethod | loadWord | loadWide | exportPc | align4 => trivial
    -- The stream alone fits the limit, since it fits with the case labels.
    have hstream : Within config.maxInstructions (d.instructions.map StreamItem.recordCount).sum :=
      Within.mono h.records (Nat.le_add_right _ _)
    exact ⟨⟨hnames, hstream, h.frame⟩, h.references, ⟨h.cases, h.records⟩, h.dispatched, h.calls, h.referenced⟩

/-- As long as its records and the bytes of its image can be counted in 32 bits, compiling a description never traps, and
    succeeds exactly if the description is accepted. -/
theorem compile_succeeds_iff (horigin : config.switchOrigin = none) (hrecords : d.recordCount config.verbose < 2 ^ 32)
    (himage : d.imageSize < 2 ^ 32) : (d.compile config).outcome ≠ .error .trap ∧
      ((∃ out, (d.compile config).outcome = .ok out) ↔ d.Accepted (d.configure config)) := by
  have houtline : Checked.Decides (d.Accepted (d.configure config)) (fun _ => True) (d.outline (d.configure config)) :=
    outline_decides horigin hrecords himage
  rw [compile_outcome]
  refine ⟨houtline.ne_trap, fun h => ?_, fun h => ?_⟩
  · obtain ⟨out, hout⟩ := h
    exact (houtline.of_eq_ok hout).1
  · obtain ⟨out, hout, -⟩ := houtline.exists_ok h
    exact ⟨out, hout⟩

theorem compile_succeeds_iff_sample : sample.recordCount false < 2 ^ 32 ∧ sample.imageSize < 2 ^ 32 ∧
    (∃ out, (sample.compile {}).outcome = .ok out) ∧ sample.Accepted (sample.configure {}) := by
  have hrecords : sample.recordCount false < 2 ^ 32 := by decide
  have himage : sample.imageSize < 2 ^ 32 := by decide
  exact ⟨hrecords, himage, exists_compile_sample, (compile_succeeds_iff rfl hrecords himage).2.mp exists_compile_sample⟩

end Description

end MethodAssembler
