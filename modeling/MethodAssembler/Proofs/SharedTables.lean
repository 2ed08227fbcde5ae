import MethodAssembler.Proofs.SwitchDispatch

/-! # Shared switch tables

Several instructions may name one switch table. The last of them becomes the anchor of the table, and where
displacements are measured from the anchor, a dispatch through the table reaches its cases from that instruction and
from no other. -/

namespace MethodAssembler

/-- How far behind its anchor a table is measured from, if it is measured from its anchor. -/
def BranchOrigin.advance? : BranchOrigin → Option UInt32
  | .anchorPlusAdvance advance => some advance
  | .anchor => some 0
  | .tableStart | .methodStart => none

/-! ### Places in a stream -/

section Places
variable {κ : Type} {key? : StreamItem → Option κ} {key : κ} {items pre : List StreamItem} {item : StreamItem} {k : Nat}

/-- No instruction behind a place has the key. -/
def IsLast (key? : StreamItem → Option κ) (key : κ) (items : List StreamItem) (k : Nat) : Prop :=
  ∀ later ∈ items.drop (k + 1), key? later ≠ some key

instance [DecidableEq κ] : Decidable (IsLast key? key items k) :=
  inferInstanceAs (Decidable (∀ later ∈ items.drop (k + 1), key? later ≠ some key))

/-- An instruction with a key is the last one, or stands before the last one. -/
theorem BeforeLast.cases_place (h : BeforeLast key? key items pre) (hk : items[k]? = some item)
    (hkey : key? item = some key) :
    IsLast key? key items k ∧ pre = items.take k ∨ ¬IsLast key? key items k ∧ items.take (k + 1) <+: pre := by
  obtain ⟨last, post, rfl, hlast, hpost⟩ := h
  rcases Nat.lt_trichotomy k pre.length with hlt | rfl | hgt
  · refine .inr ⟨fun hnone => hnone last ?_ hlast, ?_⟩
    · rw [List.drop_append_of_le_length hlt]
      exact List.mem_append_right _ List.mem_cons_self
    · rw [List.take_append_of_le_length hlt]
      exact List.take_prefix _ _
  · refine .inl ⟨?_, by rw [List.take_left]⟩
    rwa [IsLast, List.drop_append, Nat.add_sub_cancel_left, List.drop_eq_nil_of_le (Nat.le_succ _), List.nil_append]
  · obtain ⟨j, rfl⟩ := Nat.exists_eq_add_of_lt hgt
    rw [List.getElem?_append_right (by omega), show pre.length + j + 1 - pre.length = j + 1 by omega,
      List.getElem?_cons_succ] at hk
    exact absurd hkey (hpost item (List.mem_of_getElem? hk))

/-- The id of the first record of the instruction at a place. -/
def recordAt (items : List StreamItem) (k : Nat) : Nat := ((items.take k).flatMap StreamItem.records).length

theorem recordAt_lt (hk : items[k]? = some item) (h : items.take (k + 1) <+: pre) :
    recordAt items k < (pre.flatMap StreamItem.records).length := by
  obtain ⟨rest, rfl⟩ := h
  obtain ⟨first, more, hrecords⟩ := item.exists_records
  rw [recordAt, List.take_add_one, hk]
  simp only [Option.toList_some, List.flatMap_append, List.flatMap_singleton, hrecords, List.length_append,
    List.length_cons]
  omega

theorem machineCount_take_lt (hk : items[k]? = some item) (hm : item.isMachine = true) (h : items.take (k + 1) <+: pre) :
    machineCount (items.take k) < machineCount pre := by
  obtain ⟨rest, rfl⟩ := h
  rw [List.take_add_one, hk, machineCount_append, machineCount_append, Option.toList_some, machineCount_singleton, hm,
    Bool.toNat_true]
  omega

/-- An instruction that takes code stands at the last address for its key exactly if it is the last one with the key. -/
theorem LastAt.eq_iff {address : Nat} (h : LastAt key? key items address) (hk : items[k]? = some item)
    (hkey : key? item = some key) (hm : item.isMachine = true) :
    4 * machineCount (items.take k) ≤ address ∧
      (4 * machineCount (items.take k) = address ↔ IsLast key? key items k) := by
  obtain ⟨pre, hpre, rfl⟩ := h
  rcases hpre.cases_place hk hkey with ⟨hlast, rfl⟩ | ⟨hlater, hprefix⟩
  · exact ⟨Nat.le_refl _, iff_of_true rfl hlast⟩
  · have hlt := machineCount_take_lt hk hm hprefix
    exact ⟨by omega, iff_of_false (by omega) hlater⟩

end Places

namespace Description
variable {d : Description} {config : Config} {out : MethodOutput} {n k : Nat} {s : SwitchDescription} {opcode : UInt16}
  {pc : UInt32}

/-! ### Anchors -/

/-- The unit that a description fills has the instruction at a place of the stream as the anchor of a table. -/
def AnchoredAt (d : Description) (config : Config) (n k : Nat) : Prop :=
  ∃ u t, d.fill (.new (d.configure config) d.context) = .ok () u ∧ u.data.switchTables[n]? = some t ∧
    t.anchor = some (recordAt d.instructions k)

/-- A stream that was accepted dispatches through tables of the description only. -/
theorem table_lt_of_ofStream {limit : Option Nat} {tables : Nat} {items : List StreamItem} {draft draft' : Draft}
    (h : draft.ofStream limit tables items = .ok draft') (hmem : .switch opcode pc n ∈ items) : n < tables := by
  induction items generalizing draft with
  | nil => cases hmem
  | cons item items ih =>
    rw [Draft.ofStream, List.foldlM_cons] at h
    obtain ⟨draft₁, henter, hrest⟩ := Checked.bind_eq_ok.mp h
    rcases List.mem_cons.mp hmem with rfl | hmem
    · obtain ⟨data, hdata, -⟩ := Checked.bind_eq_ok.mp henter
      rw [StreamItem.enterData] at hdata
      split at hdata
      · cases hdata
      · rename_i hlt
        exact Nat.lt_of_not_le hlt
    · exact ih hrest hmem

theorem switch_of_filling {limit : Option Nat} {f : Filling} (h : d.filling limit = .ok f)
    (hk : d.instructions[k]? = some (.switch opcode pc n)) : ∃ s, d.switches[n]? = some s := by
  obtain ⟨draft, hdraft, -⟩ := Checked.bind_eq_ok.mp h
  have hlt := table_lt_of_ofStream hdraft (List.mem_of_getElem? hk)
  exact ⟨_, List.getElem?_eq_getElem hlt⟩

/-- The anchor of a table is the last instruction that names it. -/
theorem anchoredAt_iff {f : Filling} (h : d.filling (d.configure config).maxInstructions = .ok f)
    (hk : d.instructions[k]? = some (.switch opcode pc n)) :
    d.AnchoredAt config n k ↔ IsLast StreamItem.table? n d.instructions k := by
  obtain ⟨s, hs⟩ := switch_of_filling h hk
  have hfill := fill_follows d (d.configure config)
  rw [h] at hfill
  obtain ⟨_, u, hrun, hfilled⟩ := hfill.exists_ok
  have htable : u.data.switchTables[n]? =
      some { payload := s.payload, dexPc := s.dexPc, anchor := f.draft.anchors.lookup n } := by
    rw [hfilled.same, dataSections, getElem?_switchTables, hs, Option.map_some, Nat.zero_add]
  -- some instruction names the table, so there is an anchor, and it is the last one
  obtain ⟨id, hid⟩ : ∃ id, f.draft.anchors.lookup n = some id := by
    obtain ⟨id, hid⟩ := (hfilled.draft.anchored n).mpr ⟨opcode, pc, List.mem_of_getElem? hk⟩
    exact Option.isSome_iff_exists.mp (lookup_isSome_iff.mpr ⟨id, hid⟩)
  obtain ⟨pre, hpre, rfl⟩ := hfilled.draft.lastAnchors n id hid
  have hanchored : d.AnchoredAt config n k ↔ recordAt d.instructions k = (pre.flatMap StreamItem.records).length := by
    rw [AnchoredAt]
    constructor
    · rintro ⟨u', t, hrun', ht, hanchor⟩
      rw [hrun] at hrun'
      cases hrun'
      rw [htable] at ht
      cases ht
      rw [hid] at hanchor
      exact (Option.some.inj hanchor).symm
    · intro heq
      exact ⟨u, _, hrun, htable, by rw [hid, heq]⟩
  rw [hanchored]
  rcases hpre.cases_place hk rfl with ⟨hlast, rfl⟩ | ⟨hlater, hprefix⟩
  · exact iff_of_true rfl hlast
  · exact iff_of_false (Nat.ne_of_lt (recordAt_lt hk hprefix)) hlater

/-! ### Displacements -/

/-- A displacement is what lies between the origin of its table and the last label of its case. -/
theorem LaidTable.displacement {r : InstrList} {t : SwitchTable} {code : Bytes} {base : UInt32} (h : d.LaidTable n s r t)
    (hstands : StandsAt code t.offset.toNat (SwitchTable.casesImage t.payload base 0 (t.targets.toList.map r.offsetOf)))
    {i : Nat} (hi : i < s.payload.size) :
    ∃ target, ∃ address : UInt32, s.payload.relativeTarget i = .ok target ∧
      code.word (d.tableOffset n + i * s.payload.caseBytes + (s.payload.caseBytes - 4)) = .ok (address - base) ∧
      LastAt StreamItem.labelPc? (s.dexPc + target.toUInt32) d.instructions address.toNat := by
  obtain ⟨label, instr, hlabel, hinstr, hholds⟩ :=
    MethodUnit.holdsCase_of_image h.resolved hstands (i := i) (by rwa [h.payload])
  obtain ⟨target, label', htarget, hlabel', hlast⟩ := h.targets i hi
  cases hlabel.symm.trans hlabel'
  have hword := hholds.words.1
  rw [h.offset, h.payload] at hword
  exact ⟨target, instr.offset, htarget, hword, hlast instr (InstrList.get_eq_ok.mp hinstr)⟩

theorem MeasuresFrom.of_advance {origin : BranchOrigin} {advance : UInt32} {base : Nat} (h : d.MeasuresFrom n origin base)
    (ho : origin.advance? = some advance) :
    ∃ address, LastAt StreamItem.table? n d.instructions address ∧ base = address + advance.toNat := by
  cases origin with
  | anchorPlusAdvance a =>
    cases ho
    exact h
  | anchor =>
    cases ho
    exact ⟨base, h, rfl⟩
  | tableStart | methodStart => cases ho

/-- Where tables are measured from their anchors, an instruction that dispatches through a table is the anchor of the table
    exactly if no later instruction names the table. Exactly then each displacement of the table, added to the address of
    the instruction and to the advance of the machine's PC, is the address of the last label of its case. -/
theorem compile_dispatches_from_itself_iff (h : (d.compile config).outcome = .ok out) {advance : UInt32}
    (horigin : (d.configure config).branchOrigin.advance? = some advance)
    (hk : d.instructions[k]? = some (.switch opcode pc n)) :
    (d.AnchoredAt config n k ↔ IsLast StreamItem.table? n d.instructions k) ∧
      ∃ s, d.switches[n]? = some s ∧ ∀ i < s.payload.size, ∃ target displacement,
        s.payload.relativeTarget i = .ok target ∧
        out.method.code.word (d.tableOffset n + i * s.payload.caseBytes + (s.payload.caseBytes - 4)) = .ok displacement ∧
        (LastAt StreamItem.labelPc? (s.dexPc + target.toUInt32) d.instructions
            ((4 * machineCount (d.instructions.take k) + advance.toNat + displacement.toNat) % 2 ^ 32) ↔
          IsLast StreamItem.table? n d.instructions k) := by
  rw [compile_outcome] at h
  obtain ⟨f, hfilling⟩ := filling_of_outline h
  obtain ⟨s, hs⟩ := switch_of_filling hfilling hk
  obtain ⟨r, t, base, htable, hbase, hstands⟩ := outline_table h hs
  obtain ⟨anchor, hanchor, hsum⟩ := (htable.measuresFrom hbase).of_advance horigin
  obtain ⟨hle, heq⟩ := hanchor.eq_iff hk rfl rfl
  refine ⟨anchoredAt_iff hfilling hk, s, hs, fun i hi => ?_⟩
  obtain ⟨target, address, htarget, hword, hlabel⟩ := htable.displacement hstands hi
  refine ⟨target, address - base, htarget, hword, ?_⟩
  -- the instruction and the anchor differ by less than 32 bits, so they reach the same address only if they are the same
  have hreach : (4 * machineCount (d.instructions.take k) + advance.toNat + (address - base).toNat) % 2 ^ 32 =
      address.toNat ↔ 4 * machineCount (d.instructions.take k) = anchor := by
    have haddress := address.toNat_lt
    have hbase := base.toNat_lt
    rw [UInt32.toNat_sub]
    omega
  rw [← heq, ← hreach]
  exact ⟨fun hlast => hlast.unique hlabel, fun hsame => hsame ▸ hlabel⟩

/-- The second of the two dispatches through the first table of the sample is its anchor, and reaches the last label for
    3. -/
theorem compile_dispatches_from_itself_iff_sample : ∃ out displacement,
    (dispatchSample.compile {}).outcome = .ok out ∧ dispatchSample.AnchoredAt {} 0 5 ∧
      out.method.code.word 12 = .ok displacement ∧
      LastAt StreamItem.labelPc? 3 dispatchSample.instructions ((8 + 4 + displacement.toNat) % 2 ^ 32) := by
  obtain ⟨out, hout⟩ : ∃ out, (dispatchSample.compile {}).outcome = .ok out := Checked.exists_of_isOk (by decide +kernel)
  have hlast : IsLast StreamItem.table? 0 dispatchSample.instructions 5 := by decide
  have horigin : (dispatchSample.configure {}).branchOrigin.advance? = some 4 := rfl
  obtain ⟨hanchored, s, hs, hcases⟩ := compile_dispatches_from_itself_iff (k := 5) hout horigin rfl
  cases hs
  obtain ⟨target, displacement, htarget, hword, hreach⟩ := hcases 0 (by decide)
  cases htarget
  exact ⟨out, displacement, hout, hanchored.mpr hlast, hword, hreach.mpr hlast⟩

/-- The first of the two is not, and misses that label. -/
theorem compile_sharedTable_misses_label : ∃ out displacement,
    (dispatchSample.compile {}).outcome = .ok out ∧
      (dispatchSample.configure {}).branchOrigin = .anchorPlusAdvance 4 ∧
      dispatchSample.instructions[1]? = some (.switch 0x10 1 0) ∧ ¬dispatchSample.AnchoredAt {} 0 1 ∧
      out.method.code.word 12 = .ok displacement ∧
      ¬LastAt StreamItem.labelPc? 3 dispatchSample.instructions ((0 + 4 + displacement.toNat) % 2 ^ 32) := by
  have hword : ((dispatchSample.compile {}).outcome >>= fun out => out.method.code.word 12) = .ok 0xfffffff8 := by
    decide +kernel
  obtain ⟨out, hout, hword⟩ := Checked.bind_eq_ok.mp hword
  obtain ⟨f, hfilling⟩ := filling_of_outline ((compile_outcome dispatchSample {}).symm.trans hout)
  have hlabel : LastAt StreamItem.labelPc? 3 dispatchSample.instructions 4 :=
    ⟨[.label 3, .switch 0x10 1 0], ⟨_, _, rfl, rfl, by decide⟩, rfl⟩
  have hlater : ¬IsLast StreamItem.table? 0 dispatchSample.instructions 1 := by decide
  refine ⟨out, _, hout, rfl, rfl, fun hanchored => hlater ((anchoredAt_iff hfilling rfl).mp hanchored), hword,
    fun hlast => ?_⟩
  exact absurd (hlast.unique hlabel) (by decide)

end Description

end MethodAssembler
