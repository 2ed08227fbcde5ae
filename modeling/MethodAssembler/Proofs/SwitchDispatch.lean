import MethodAssembler.Proofs.Acceptance
import MethodAssembler.Proofs.LaidMethod

/-! # Switch dispatch

A dispatch adds a displacement that it reads from its switch table to the origin of the table, modulo 32 bits. In the image
of a compiled method this is the address of the block that the case leads to, which begins at the last label of the stream
with the source PC of the case. -/

namespace MethodAssembler

/-! ### Words of an image -/

namespace Bytes

/-- The word at a place. -/
def word (code : Bytes) (place : Nat) : Checked UInt32 :=
  return .ofNat (ofLittleEndian (← code.slice place 4).toList)

/-- Bytes can be read where they stand. -/
theorem slice_of_standsAt {code : Bytes} {place count : Nat} {bytes : List UInt8} (h : StandsAt code place bytes)
    (hc : count = bytes.length) (hpos : 0 < count) : code.slice place count = .ok bytes.toArray := by
  obtain ⟨rest, hrest⟩ := h
  have hplace : place ≤ code.toList.length := by
    have hlength := congrArg List.length hrest
    rw [List.length_append, List.length_drop] at hlength
    omega
  have hsplit : code = (code.toList.take place ++ bytes ++ rest).toArray := by
    rw [List.append_assoc, hrest, List.take_append_drop, Array.toArray_toList]
  rw [hsplit]
  exact slice_middle _ _ _ (by rw [List.length_take, Nat.min_eq_left hplace]) hc

theorem word_of_standsAt {code : Bytes} {place : Nat} {w : UInt32} (h : StandsAt code place (littleEndian 4 w.toNat)) :
    code.word place = .ok w := by
  have hw : w.toNat % 256 ^ 4 = w.toNat := Nat.mod_eq_of_lt w.toNat_lt
  rw [word, slice_of_standsAt h (littleEndian_length _ _).symm (by decide), Checked.ok_bind,
    ofLittleEndian_littleEndian, hw,
    UInt32.ofNat_toNat]
  rfl

end Bytes

theorem HoldsCase.words {code : Bytes} {t : SwitchTable} {i : Nat} {displacement : UInt32}
    (h : HoldsCase code t i displacement) :
    code.word (t.offset.toNat + i * t.payload.caseBytes + (t.payload.caseBytes - 4)) = .ok displacement ∧
      (t.payload.kind = .sparse → ∃ key, t.payload.key i = .ok key ∧
        code.word (t.offset.toNat + i * t.payload.caseBytes) = .ok key.toUInt32) := by
  rw [HoldsCase] at h
  rw [SwitchPayload.caseBytes]
  cases hk : t.payload.kind with
  | packed =>
    rw [hk] at h
    exact ⟨Bytes.word_of_standsAt h, fun hsparse => SwitchKind.noConfusion hsparse⟩
  | sparse =>
    rw [hk] at h
    obtain ⟨key, hkey, hstands⟩ := h
    have hdisplacement := hstands.append_right
    rw [littleEndian_length] at hdisplacement
    exact ⟨Bytes.word_of_standsAt hdisplacement, fun _ => ⟨key, hkey, Bytes.word_of_standsAt hstands.append_left⟩⟩

/-! ### Addresses in a stream -/

section Addresses
variable {κ : Type} {key? : StreamItem → Option κ} {k : κ} {items pre : List StreamItem}

/-- Nothing with the key stands between the last instruction with it and another one. -/
theorem eq_nil_of_last {item item' : StreamItem} {post post' between : List StreamItem}
    (hpost : ∀ later ∈ post, key? later ≠ some k) (hitem' : key? item' = some k)
    (h : item :: post = between ++ item' :: post') : between = [] := by
  cases between with
  | nil => rfl
  | cons x between =>
    obtain ⟨-, rfl⟩ := List.cons.inj h
    exact absurd hitem' (hpost item' (List.mem_append_right _ List.mem_cons_self))

theorem BeforeLast.unique {pre' : List StreamItem} (h : BeforeLast key? k items pre) (h' : BeforeLast key? k items pre') :
    pre = pre' := by
  obtain ⟨item, post, rfl, hitem, hpost⟩ := h
  obtain ⟨item', post', heq, hitem', hpost'⟩ := h'
  rcases List.append_eq_append_iff.mp heq with ⟨between, hpre', hrest⟩ | ⟨between, hpre, hrest⟩
  · rw [hpre', eq_nil_of_last hpost hitem' hrest, List.append_nil]
  · rw [hpre, eq_nil_of_last hpost' hitem hrest, List.append_nil]

/-- The native offset of the last instruction with a key: each machine instruction before it takes four bytes. -/
def LastAt (key? : StreamItem → Option κ) (k : κ) (items : List StreamItem) (address : Nat) : Prop :=
  ∃ pre, BeforeLast key? k items pre ∧ address = 4 * machineCount pre

theorem LastAt.unique {address address' : Nat} (h : LastAt key? k items address) (h' : LastAt key? k items address') :
    address = address' := by
  obtain ⟨pre, hpre, rfl⟩ := h
  obtain ⟨pre', hpre', rfl⟩ := h'
  rw [hpre.unique hpre']

theorem StreamItem.exists_records (item : StreamItem) : ∃ first rest, item.records = first :: rest := by
  cases item <;> exact ⟨_, _, rfl⟩

/-- In a layout an instruction stands behind the machine instructions before it. -/
theorem BeforeLast.offset_eq {entries stamped : List (InstrId × Instruction)} {stop : UInt32} {i : Instruction}
    (h : BeforeLast key? k items pre) (he : entries.map (·.2) = items.flatMap StreamItem.records)
    (hlayout : FixedWidth.layOut 4 entries 0 = .ok (stamped, stop))
    (hi : (stamped.map (·.2))[(pre.flatMap StreamItem.records).length]? = some i) :
    i.offset.toNat = 4 * machineCount pre := by
  obtain ⟨item, post, rfl, -, -⟩ := h
  obtain ⟨first, rest, hfirst⟩ := item.exists_records
  rw [List.flatMap_append, List.flatMap_cons, hfirst, List.cons_append] at he
  obtain ⟨front, back, rfl, hfront, hback⟩ := List.map_eq_append_iff.mp he
  obtain ⟨⟨id, i₀⟩, back, rfl, -, -⟩ := List.map_eq_cons_iff.mp hback
  obtain ⟨laid, middle, behind, hlaid, hbehind, rfl⟩ := FixedWidth.layOut_append.mp hlayout
  obtain ⟨offset, next, tail, hplace, -, rfl⟩ := FixedWidth.layOut_cons.mp hbehind
  -- What comes before the instruction is a stream of its own, and ends where the instruction stands.
  have hmiddle := layOut_stream_stop hfront hlaid
  obtain ⟨rfl, -⟩ := (FixedWidth.place_four_eq_ok (hmiddle ▸ Nat.dvd_mul_right 4 _)).mp hplace
  have hlength : (pre.flatMap StreamItem.records).length = (laid.map (·.2)).length := by
    have hids := congrArg List.length (FixedWidth.layOut_ids hlaid)
    rw [List.length_map, List.length_map] at hids
    rw [← hfront, List.length_map, List.length_map, hids]
  rw [hlength, List.map_append, List.getElem?_append_right (Nat.le_refl _), Nat.sub_self] at hi
  cases hi
  exact hmiddle

end Addresses

/-! ### Tables in their layout -/

namespace Description

/-- Where a switch table stands in the image: behind the code, the literals and the tables before it. -/
def tableOffset (d : Description) (n : Nat) : Nat :=
  4 * machineCount d.instructions + literalBytes d.instructions +
    ((d.switches.take n).map fun s => s.payload.size * s.payload.caseBytes).sum

/-- Where the displacements of a switch table are measured from. -/
def MeasuresFrom (d : Description) (n : Nat) : BranchOrigin → (base : Nat) → Prop
  | .methodStart, base => base = 0
  | .tableStart, base => base = d.tableOffset n
  | .anchor, base => LastAt StreamItem.table? n d.instructions base
  | .anchorPlusAdvance advance, base =>
    ∃ address, LastAt StreamItem.table? n d.instructions address ∧ base = address + advance.toNat

/-- The table of switch `n` of a method whose records are laid out in `r`. -/
structure LaidTable (d : Description) (n : Nat) (s : SwitchDescription) (r : InstrList) (t : SwitchTable) : Prop where
  payload : t.payload = s.payload
  offset : t.offset.toNat = d.tableOffset n
  anchor : ∀ id i, t.anchor = some id → r.contents[id]? = some i → LastAt StreamItem.table? n d.instructions i.offset.toNat
  resolved : t.Resolved r
  targets : ∀ k < s.payload.size, ∃ target label, s.payload.relativeTarget k = .ok target ∧ t.targets[k]? = some label ∧
    ∀ i, r.contents[label]? = some i →
      LastAt StreamItem.labelPc? (s.dexPc + target.toUInt32) d.instructions i.offset.toNat

variable {d : Description} {config : Config} {out : MethodOutput} {n : Nat} {s : SwitchDescription} {f : Filling}
  {r : InstrList} {t : SwitchTable} {tables : List SwitchTable} {stamped : List (InstrId × Instruction)}
  {data : DataSections} {layout : DataLayout} {codeSize : UInt32}

theorem LaidTable.measuresFrom (h : d.LaidTable n s r t) {origin : BranchOrigin} {base : UInt32}
    (ho : t.origin r origin = .ok base) : d.MeasuresFrom n origin base.toNat := by
  -- Only two of the origins look at the anchor, and both through its instruction.
  have hanchor : ∀ i, t.anchorInstr r = .ok i → LastAt StreamItem.table? n d.instructions i.offset.toNat := by
    intro i hi
    rw [SwitchTable.anchorInstr] at hi
    split at hi
    · rename_i id hid
      exact h.anchor id i hid (InstrList.get_eq_ok.mp hi)
    · cases hi
  cases origin with
  | anchorPlusAdvance advance =>
    simp only [SwitchTable.origin, Checked.bind_eq_ok] at ho
    obtain ⟨i, hi, -, -, hbase⟩ := ho
    exact ⟨i.offset.toNat, hanchor i hi, addWords_eq_ok.mp hbase⟩
  | anchor =>
    obtain ⟨i, hi, hbase⟩ := Checked.bind_eq_ok.mp ho
    cases hbase
    exact hanchor i hi
  | tableStart =>
    cases ho
    exact h.offset
  | methodStart =>
    cases ho
    rfl

/-- The tables come in the order of their switches, each from where the one before it ends. -/
theorem offset_of_assign (hf : f.draft.Of d.instructions)
    (hlayout : FixedWidth.layOut 4 (numbered f.draft.records) 0 = .ok (stamped, codeSize))
    (hassign : ({ d.dataSections f with switchTables := tables } : DataSections).assign codeSize 4 = .ok (data, layout))
    (hpayloads : tables.map (·.payload) = (d.dataSections f).switchTables.map (·.payload)) (ht : tables[n]? = some t) :
    ∃ offset : UInt32, data.switchTables[n]? = some { t with offset } ∧ offset.toNat = d.tableOffset n := by
  obtain ⟨o₁, o₂, o₃, o₄, hspread⟩ := DataSections.spread_of_assign hassign
  have hcode : codeSize.toNat = 4 * machineCount d.instructions :=
    layOut_stream_stop ((map_numbered _).trans hf.records) hlayout
  have hdata : layout.dataOffset.toNat = codeSize.toNat :=
    hspread.dataOffset.trans (roundUp_of_dvd (by decide) (hcode ▸ Nat.dvd_mul_right 4 _))
  obtain ⟨-, -, -, d₃, -⟩ := hspread.stops (by decide)
  obtain ⟨offset, hget, hoffset⟩ := arrange_getElem? (sized_switchTables _) d₃ hspread.switchTables ht
  have hliterals := hf.data.literalBytes_eq
  have htables := map_tableBytes hpayloads
  refine ⟨offset, hget, ?_⟩
  rw [hoffset, hspread.start_switchTables, hdata, hcode, List.map_take, htables, ← List.map_take, tableOffset, hliterals]
  simp only [dataSections]
  omega

/-- Laid out, a table leads to the last labels of its cases. -/
theorem laidTable_of_layout (hf : f.draft.Of d.instructions) {count : Nat}
    (htables : (f.draft.labelling config).tableTargets (d.dataSections f).switchTables f.draft.records.length =
      .ok (tables, count))
    (hlayout : FixedWidth.layOut 4 (numbered f.draft.records) 0 = .ok (stamped, codeSize))
    (hassign : ({ d.dataSections f with switchTables := tables } : DataSections).assign codeSize 4 = .ok (data, layout))
    (hs : d.switches[n]? = some s) :
    ∃ t ∈ data.switchTables, d.LaidTable n s (.ofRecords (stamped.map (·.2))) t := by
  have hrecords : (numbered f.draft.records).map (·.2) = d.instructions.flatMap StreamItem.records := by
    rw [map_numbered, hf.records]
  have htable : (d.dataSections f).switchTables[n]? =
      some { payload := s.payload, dexPc := s.dexPc, anchor := f.draft.anchors.lookup n } := by
    rw [dataSections, getElem?_switchTables, hs, Option.map_some, Nat.zero_add]
  obtain ⟨targets, hplain⟩ := Labelling.tableTargets_getElem? htables htable
  have hleads := Labelling.tableTargets_eq_ok htables _ (List.mem_of_getElem? hplain)
  have hpayloads := map_of_same (g := (·.payload)) (fun _ _ => rfl) (Labelling.tableTargets_same htables)
  -- Resolving leaves the payloads alone, so the tables are as large as the switches say.
  obtain ⟨offset, ht, hoffset⟩ := offset_of_assign hf hlayout hassign hpayloads hplain
  refine ⟨_, List.mem_of_getElem? ht, rfl, hoffset, fun id i hid hi => ?_, ?_, fun k hk => ?_⟩
  · obtain ⟨pre, hpre, rfl⟩ := hf.lastAnchors n id hid
    rw [InstrList.contents_ofRecords] at hi
    exact ⟨pre, hpre, hpre.offset_eq hrecords hlayout hi⟩
  · refine ⟨hleads.count, fun label hlabel => ?_, fun _ => hleads.keys⟩
    obtain ⟨pc, hpc⟩ := hleads.labels label hlabel
    obtain ⟨o, -, hcontents⟩ := layOut_numbered hlayout (hf.labels pc label hpc)
    rw [← InstrList.contents_length]
    exact (List.getElem?_eq_some_iff.mp hcontents).1
  · obtain ⟨pc, label, hpc, hlookup, htarget⟩ := hleads.leads k hk
    obtain ⟨target, hrelative, hpc⟩ := Checked.bind_eq_ok.mp hpc
    cases hpc
    refine ⟨target, label, hrelative, htarget, fun i hi => ?_⟩
    obtain ⟨pre, hpre, rfl⟩ := hf.lastLabels _ label hlookup
    rw [InstrList.contents_ofRecords] at hi
    exact ⟨pre, hpre, hpre.offset_eq hrecords hlayout hi⟩

/-! ### Tables in the image -/

theorem mem_placedBytes {origin : BranchOrigin} (ht : t ∈ data.switchTables) :
    ⟨t.offset, t.image (.ofRecords (stamped.map (·.2))) origin⟩ ∈ placedBytes stamped data layout origin := by
  simp only [placedBytes, DataSections.placements, List.mem_append, List.mem_map]
  exact .inr (.inr (.inr (.inr (.inl ⟨t, ht, rfl⟩))))

/-- The image of a compiled method holds each table with its displacements. -/
theorem outline_table (h : d.outline config = .ok out) (hs : d.switches[n]? = some s) : ∃ r t base,
    d.LaidTable n s r t ∧ t.origin r config.branchOrigin = .ok base ∧
      StandsAt out.method.code t.offset.toNat
        (SwitchTable.casesImage t.payload base 0 (t.targets.toList.map r.offsetOf)) := by
  obtain ⟨l, hl, hfinish⟩ := of_outline h
  have hfinished := Laid.finished_of_finish hfinish
  obtain ⟨count, htargets⟩ := hl.targets
  obtain ⟨t, ht, htable⟩ := laidTable_of_layout hl.draft htargets hl.records hl.data hs
  obtain ⟨base, hbase⟩ := origin_of_checkOrigins hfinished.origins ht
  have hstands := hfinished.standsAt hl (mem_placedBytes ht)
  rw [SwitchTable.image, hbase] at hstands
  exact ⟨_, t, base, htable, hbase, hstands⟩

/-- Every dispatch through a switch table reaches the block of its case: the origin of the table and the displacement of the
    case, added modulo 32 bits, are the address of the last label with the source PC that the case leads to. In a sparse
    table the key of the case stands before its displacement. -/
theorem compile_dispatch_reaches_label (h : (d.compile config).outcome = .ok out) (hs : d.switches[n]? = some s) :
    ∃ base, d.MeasuresFrom n (d.configure config).branchOrigin base ∧
      ∀ i < s.payload.size, ∃ target displacement, s.payload.relativeTarget i = .ok target ∧
        out.method.code.word (d.tableOffset n + i * s.payload.caseBytes + (s.payload.caseBytes - 4)) = .ok displacement ∧
        LastAt StreamItem.labelPc? (s.dexPc + target.toUInt32) d.instructions ((base + displacement.toNat) % 2 ^ 32) ∧
        (s.payload.kind = .sparse → ∃ key, s.payload.key i = .ok key ∧
          out.method.code.word (d.tableOffset n + i * s.payload.caseBytes) = .ok key.toUInt32) := by
  rw [compile_outcome] at h
  obtain ⟨r, t, base, htable, hbase, hstands⟩ := outline_table h hs
  refine ⟨base.toNat, htable.measuresFrom hbase, fun i hi => ?_⟩
  obtain ⟨label, instr, hlabel, hinstr, hholds⟩ := MethodUnit.holdsCase_of_image htable.resolved hstands
    (i := i) (by rw [htable.payload]; exact hi)
  obtain ⟨target, label', htarget, hlabel', hlast⟩ := htable.targets i hi
  cases hlabel.symm.trans hlabel'
  obtain ⟨hword, hkey⟩ := hholds.words
  rw [htable.offset, htable.payload] at hword hkey
  have hsum : (base.toNat + (instr.offset - base).toNat) % 2 ^ 32 = instr.offset.toNat := by
    have hoffset := instr.offset.toNat_lt
    have hbase := base.toNat_lt
    rw [UInt32.toNat_sub]
    omega
  refine ⟨target, instr.offset - base, htarget, hword, ?_, hkey⟩
  rw [hsum]
  exact hlast instr (InstrList.get_eq_ok.mp hinstr)

/-- A method with two labels for one source PC, two dispatches through its first table, and a sparse table whose second case
    leads backwards. -/
def dispatchSample : Description where
  name := "dispatches"
  instructions := [.label 3, .switch 0x10 1 0, .label 3, .switch 0x11 5 1, .op 0x22 6 [] true, .switch 0x10 7 0, .label 9]
  switches := [.packed 1 10 [2, 8], .sparse 5 [(7, 4), (-1, -2)]]

/-- The second table stands at 20 and is measured from 8. Its second case leads to the second of the labels for 3, which
    stands at 4. -/
theorem compile_dispatch_reaches_label_sample : ∃ out, (dispatchSample.compile {}).outcome = .ok out ∧
    out.method.code.word 28 = .ok 0xffffffff ∧ out.method.code.word 32 = .ok 0xfffffffc := by
  obtain ⟨out, hout⟩ : ∃ out, (dispatchSample.compile {}).outcome = .ok out := Checked.exists_of_isOk (by decide +kernel)
  obtain ⟨base, ⟨address, hanchor, rfl⟩, hcases⟩ :=
    compile_dispatch_reaches_label (n := 1) (s := .sparse 5 [(7, 4), (-1, -2)]) hout rfl
  have hswitch : LastAt StreamItem.table? 1 dispatchSample.instructions 4 :=
    ⟨[.label 3, .switch 0x10 1 0, .label 3], ⟨_, _, rfl, rfl, by decide⟩, rfl⟩
  have hlabel : LastAt StreamItem.labelPc? 3 dispatchSample.instructions 4 :=
    ⟨[.label 3, .switch 0x10 1 0], ⟨_, _, rfl, rfl, by decide⟩, rfl⟩
  cases hanchor.unique hswitch
  obtain ⟨target, displacement, htarget, hword, hlast, hkey⟩ := hcases 1 (by decide)
  cases htarget
  obtain ⟨key, hkey, hkeyWord⟩ := hkey rfl
  cases hkey
  have hsum : (8 + displacement.toNat) % 2 ^ 32 = 4 := hlast.unique hlabel
  have hdisplacement : displacement = 0xfffffffc := by
    have hlt := displacement.toNat_lt
    refine UInt32.toNat_inj.mp (?_ : displacement.toNat = 4294967292)
    omega
  exact ⟨out, hout, hkeyWord, hdisplacement ▸ hword⟩

end Description

end MethodAssembler
