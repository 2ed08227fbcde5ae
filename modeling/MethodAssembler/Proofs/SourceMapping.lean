import MethodAssembler.Proofs.LaidMethod

/-! # Source mapping

The mapping table of a compiled method against its stream: an entry for each call, at the address that the call returns to,
and one for each exported PC, at the address reached there. What takes no code moves no address. -/

namespace MethodAssembler

/-! ### Sites of a stream -/

/-- The calls of a stream in order. Each has the address behind it, four times the number of machine instructions up to and
    including it, and its source PC. -/
def callSites (items : List StreamItem) : List (Nat × UInt32) :=
  items.zipIdx.filterMap fun (item, k) => item.callPc?.map fun pc => (4 * machineCount (items.take (k + 1)), pc)

/-- The exported PCs of a stream in order, each with the address reached before it. -/
def exportSites (items : List StreamItem) : List (Nat × UInt32) :=
  items.zipIdx.filterMap fun (item, k) => item.exportedPc?.map fun pc => (4 * machineCount (items.take k), pc)

/-- The instructions of a stream that enter a PC into a block, each with the address behind it. -/
def mappedSites (kind : MappingKind) (items : List StreamItem) : List (Nat × UInt32) :=
  items.zipIdx.filterMap fun (item, k) => (item.mappedPc? kind).map fun pc => (4 * machineCount (items.take (k + 1)), pc)

section Sites
variable {kind : MappingKind} {items : List StreamItem} {item : StreamItem}

theorem mappedSites_calls (items : List StreamItem) : mappedSites .pcToDex items = callSites items := rfl

/-- An export takes no code, so it stands where the instruction behind it does. -/
theorem mappedSites_exports (items : List StreamItem) : mappedSites .dexToPc items = exportSites items := by
  refine List.filterMap_congr ?_
  rintro ⟨item, k⟩ hmem
  have hitem : items[k]? = some item := List.mk_mem_zipIdx_iff_getElem?.mp hmem
  cases item with
  | exportPc pc =>
    have hcount : machineCount (items.take (k + 1)) = machineCount (items.take k) := by
      rw [List.take_add_one, hitem, machineCount_append]
      rfl
    simp only [hcount]
    rfl
  | label | op | call | invokeCode | invokeMethod | loadWord | loadWide | switch | align4 => rfl

theorem mappedSites_concat : mappedSites kind (items ++ [item]) =
    mappedSites kind items ++ ((item.mappedPc? kind).map fun pc => (4 * machineCount (items ++ [item]), pc)).toList := by
  rw [mappedSites, List.zipIdx_append, List.filterMap_append]
  congr 1
  · refine List.filterMap_congr ?_
    rintro ⟨x, k⟩ hmem
    have hk : k < items.length := (List.getElem?_eq_some_iff.mp (List.mk_mem_zipIdx_iff_getElem?.mp hmem)).1
    simp only [List.take_append_of_le_length (Nat.succ_le_of_lt hk)]
  · have htake : (items ++ [item]).take (items.length + 1) = items ++ [item] := List.take_of_length_le (by simp)
    cases hpc : item.mappedPc? kind <;> simp [hpc, htake]

theorem le_of_mem_mappedSites {site : Nat × UInt32} (h : site ∈ mappedSites kind items) :
    site.1 ≤ 4 * machineCount items := by
  obtain ⟨⟨item, k⟩, -, hsite⟩ := List.mem_filterMap.mp h
  obtain ⟨pc, -, rfl⟩ := Option.map_eq_some_iff.mp hsite
  exact Nat.mul_le_mul_left 4 (List.take_sublist _ _).countP_le

/-- A call takes code, so each returns behind all calls before it. -/
theorem pairwise_callSites (items : List StreamItem) : (callSites items).Pairwise fun a b => a.1 < b.1 := by
  rw [← mappedSites_calls]
  induction items using List.reverseRecOn with
  | nil => exact .nil
  | append_singleton items item ih =>
    rw [mappedSites_concat, List.pairwise_append]
    refine ⟨ih, ?_, fun a ha b hb => ?_⟩
    · cases item.mappedPc? .pcToDex with
      | none => exact .nil
      | some pc => exact List.pairwise_singleton _ _
    · obtain ⟨pc, hpc, rfl⟩ := Option.map_eq_some_iff.mp (Option.mem_toList.mp hb)
      have hle := le_of_mem_mappedSites ha
      have hmachine : item.isMachine = true := StreamItem.isMachine_of_call hpc
      rw [machineCount_append, machineCount_singleton, hmachine, Bool.toNat_true]
      omega

end Sites

/-! ### The layout of a stream -/

open MappingTable in
/-- The markers in the layout of a stream are the sites of the stream. -/
theorem entriesOf_stream {items : List StreamItem} {entries stamped : List (InstrId × Instruction)} {stop : UInt32}
    (kind : MappingKind) (he : entries.map (·.2) = items.flatMap StreamItem.records)
    (h : FixedWidth.layOut 4 entries 0 = .ok (stamped, stop)) :
    (entriesOf kind (markersOf stamped)).map (fun e => (e.nativeOffset.toNat, e.dexPc)) = mappedSites kind items := by
  induction items using List.reverseRecOn generalizing entries stamped stop with
  | nil =>
    cases List.map_eq_nil_iff.mp he
    cases h
    rfl
  | append_singleton items item ih =>
    have hstop := layOut_stream_stop he h
    rw [List.flatMap_append, List.flatMap_singleton] at he
    obtain ⟨front, back, rfl, hfront, hback⟩ := List.map_eq_append_iff.mp he
    obtain ⟨laid, middle, behind, hlaid, hbehind, rfl⟩ := FixedWidth.layOut_append.mp h
    have hmiddle : 4 ∣ middle.toNat := layOut_stream_stop hfront hlaid ▸ Nat.dvd_mul_right 4 _
    rw [markersOf_append, entriesOf_append, List.map_append, ih hfront hlaid, entriesOf_item kind hback hmiddle hbehind,
      mappedSites_concat, ← hstop]
    cases item.mappedPc? kind <;> rfl

/-! ### The table of a compiled method -/

namespace Description
variable {d : Description} {config : Config} {out : MethodOutput}

/-- The mapping table of a compiled method has an entry for each call and each exported PC of the stream, in stream
    order and at the address that the machine instructions before it take up, a call itself included. -/
theorem compile_mappingTable (h : (d.compile config).outcome = .ok out) :
    ∃ t, MappingTable.decode out.method.mappingTable = .ok t ∧
      t.pcToDex.map (fun e => (e.nativeOffset.toNat, e.dexPc)) = callSites d.instructions ∧
      t.dexToPc.map (fun e => (e.nativeOffset.toNat, e.dexPc)) = exportSites d.instructions ∧
      t.pcToDex.Pairwise fun e e' => e.nativeOffset < e'.nativeOffset := by
  rw [compile_outcome] at h
  obtain ⟨l, hl, hfinish⟩ := of_outline h
  obtain ⟨mapping, -, hmapping, -, htable, -⟩ := (Laid.finished_of_finish hfinish).tables
  have hcalls := entriesOf_stream .pcToDex hl.map_records hl.records
  have hexports := entriesOf_stream .dexToPc hl.map_records hl.records
  rw [mappedSites_calls] at hcalls
  rw [mappedSites_exports] at hexports
  refine ⟨_, htable ▸ MappingTable.decode_encode hmapping, hcalls, hexports, ?_⟩
  have hascend := pairwise_callSites d.instructions
  rw [← hcalls, List.pairwise_map] at hascend
  exact hascend.imp UInt32.lt_iff_toNat_lt.mpr

/-- A method with nops and alignment between its calls and exports. -/
def mappingSample : Description where
  name := "mapping"
  instructions := [.align4, .op 0x22 0 [] true, .exportPc 3, .op 0x23 1 [] false, .invokeCode 0x30 2 7 .direct, .label 5,
    .call 0x33 2 [], .exportPc 3, .align4, .exportPc 0]
  references := [⟨2, []⟩]

/-- Only three instructions of the sample take code, and the nop does not although it is retained. -/
theorem compile_mappingTable_sample :
    ∃ out t, (mappingSample.compile { verbose := true, retainNops := true }).outcome = .ok out ∧
      MappingTable.decode out.method.mappingTable = .ok t ∧
      t.pcToDex.map (fun e => (e.nativeOffset.toNat, e.dexPc)) = [(8, 2), (12, 2)] ∧
      t.dexToPc.map (fun e => (e.nativeOffset.toNat, e.dexPc)) = [(0, 3), (12, 3), (12, 0)] := by
  obtain ⟨out, hout⟩ : ∃ out, (mappingSample.compile { verbose := true, retainNops := true }).outcome = .ok out :=
    Checked.exists_of_isOk (by decide +kernel)
  obtain ⟨t, ht, hcalls, hexports, -⟩ := compile_mappingTable hout
  exact ⟨out, t, hout, ht, hcalls, hexports⟩

end Description

end MethodAssembler
