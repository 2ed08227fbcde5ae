import MethodAssembler.Proofs.InstrList.Reachable
import MethodAssembler.Proofs.Installation
import MethodAssembler.Proofs.Resolution

/-! # The image of a unit

Layout, encoder and installation agree: once offsets are assigned, installing a unit gives an image of the size that was
announced, with every instruction, literal, switch table and fill-array at the offset it was given, and zeros
between them. -/

namespace MethodAssembler

/-! ### Units -/

/-- The layout of a method: its entries at their offsets, its data at theirs, and where everything is. -/
def laidOut (width : UInt32) (entries : List (InstrId × Instruction)) (data : DataSections) :
    Checked (List (InstrId × Instruction) × DataSections × DataLayout) := do
  let (stamped, codeSize) ← FixedWidth.layOut width entries 0
  let (data, layout) ← data.assign codeSize 4
  return (stamped, data, layout)

theorem laidOut_eq_ok {width : UInt32} {entries stamped : List (InstrId × Instruction)} {data laid : DataSections}
    {layout : DataLayout} : laidOut width entries data = .ok (stamped, laid, layout) ↔
      ∃ codeSize, FixedWidth.layOut width entries 0 = .ok (stamped, codeSize) ∧
        data.assign codeSize 4 = .ok (laid, layout) := by
  simp only [laidOut, Checked.bind_eq_ok, Checked.pure_eq, Except.ok.injEq, Prod.mk.injEq, Prod.exists]
  constructor
  · rintro ⟨_, codeSize, hcode, _, _, hdata, rfl, rfl, rfl⟩
    exact ⟨codeSize, hcode, hdata⟩
  · rintro ⟨codeSize, hcode, hdata⟩
    exact ⟨_, codeSize, hcode, _, _, hdata, rfl, rfl, rfl⟩

namespace MethodUnit
variable {u : MethodUnit} {width : UInt32}

theorem assignOffsets_follows {ids : List InstrId} (h : u.list.Links ids) :
    Stateful.Follows (laidOut width u.list.entries u.data)
      (fun (stamped, data, layout) result u' => result = layout ∧ u'.list.entries = stamped ∧
        FixedWidth.Restamped ids u.list u'.list ∧
        u' = { u with list := u'.list, data, layout, events := u'.events })
      (assignOffsets (.fixedWidth width) u) := by
  refine (onList_follows (FixedWidth.assignOffsets_follows h)).bind ?_
  rintro ⟨stamped, _⟩ codeSize u₁ ⟨⟨rfl, hentries, hkept⟩, hu₁⟩
  have hdata : u₁.data = u.data := by rw [hu₁]
  simp only [Stateful.get_bind_run, u₁.pointerSize_eq, hdata]
  refine (Stateful.Follows.lift (u.data.assign codeSize 4) u₁).bind ?_
  rintro ⟨data, layout⟩ _ _ ⟨rfl, rfl⟩
  refine ⟨_, rfl, rfl, hentries, hkept, ?_⟩
  rw [hu₁]

/-- The unit without its offsets, and without the layout and the events that tell of them. -/
def withoutOffsets (u : MethodUnit) : MethodUnit :=
  { u with list := u.list.withoutOffsets, data := u.data.withoutOffsets, layout := {}, events := #[] }

/-- Assigning offsets changes nothing else of what the unit holds. -/
theorem withoutOffsets_of_assignOffsets {ids : List InstrId} {layout : DataLayout} {u' : MethodUnit}
    (h : u.list.Links ids) (ha : assignOffsets (.fixedWidth width) u = .ok layout u') :
    u'.withoutOffsets = u.withoutOffsets := by
  obtain ⟨⟨stamped, data, layout⟩, hlaid, -, -, hkept, hu'⟩ := (assignOffsets_follows h).ok ha
  obtain ⟨codeSize, -, hassign⟩ := laidOut_eq_ok.mp hlaid
  obtain ⟨_, _, _, _, hspread⟩ := DataSections.spread_of_assign hassign
  have hdata : u'.data = data := by rw [hu']
  calc u'.withoutOffsets
    _ = { u with
          list := u'.list.withoutOffsets, data := u'.data.withoutOffsets, layout := {}, events := #[] } := by
      rw [withoutOffsets, hu']
    _ = u.withoutOffsets := by rw [withoutOffsets, hkept.same, hdata, hspread.same]

/-- Everything that the image of a unit holds, at its place. -/
def placements (width : UInt32) (u : MethodUnit) : List Placement :=
  FixedWidth.placements width u.list.entries ++
    u.data.placements u.layout (SwitchTable.image u.list u.config.branchOrigin)

theorem install_follows {stop : Nat} (hd : u.data.Installable u.list) (ha : Ascends 0 (u.placements width) stop) :
    Stateful.Follows (checkOrigins u.list u.config.branchOrigin u.data.switchTables)
      (fun _ _ u' => u'.code = Bytes.putAll #[] (u.placements width) ∧
        u'.patches.toList = u.patches.toList ++ u.data.patches u.context ∧
        u' = { u with code := u'.code, patches := u'.patches, events := u'.events })
      (install (.fixedWidth width) u) := by
  have hcode : Ascends (FixedWidth.encode width u.list).size
      (u.data.placements u.layout (SwitchTable.image u.list u.config.branchOrigin)) stop := by
    rw [FixedWidth.encode_eq_putAll]
    exact Bytes.ascends_putAll ha
  have hdata := Image.installData_follows u.context (m := ⟨FixedWidth.encode width u.list, u.patches, u.events⟩)
    hd hcode
  simp only [install, Stateful.get_bind_run, Encoder.fixedWidth, Stateful.lift_ok_bind_run, u.pointerSize_eq]
  -- Whether the image was installed or not, the unit keeps what the installation recorded.
  cases hrun : Image.installData u.data u.layout u.context 4 u.list u.config.branchOrigin
      ⟨FixedWidth.encode width u.list, u.patches, u.events⟩ with
  | error e m =>
    rw [hrun] at hdata
    rw [Stateful.bind_of_error (show onImage _ _ u = .error e { u with patches := m.patches, events := m.events } by
      simp [onImage, hrun])]
    exact hdata
  | ok _ m =>
    obtain ⟨_, hcheck, hm⟩ := hdata.ok hrun
    rw [Stateful.bind_of_ok (show onImage _ _ u = .ok m.code { u with patches := m.patches, events := m.events } by
      simp [onImage, hrun])]
    refine ⟨(), hcheck, ?_, hm.patches, rfl⟩
    rw [placements, Bytes.putAll_append, ← FixedWidth.encode_eq_putAll]
    exact hm.code

end MethodUnit

/-! ### What a unit may hold -/

/-- Pools of pointers: what adding pointers and laying them out makes of an empty pool. -/
inductive LiteralPool.OfPointers : LiteralPool → Prop where
  | empty : OfPointers {}
  | add {p p' : LiteralPool} {target size : UInt32} {kind : InvokeKind} {id : LiteralId} :
    OfPointers p → p.addPointer target kind size = .ok (id, p') → OfPointers p'
  | assign {p p' : LiteralPool} {offset size stop : UInt32} :
    OfPointers p → p.assignPointers offset size = .ok (p', stop) → OfPointers p'

/-- Fill-arrays that were accepted, at any offset. -/
def FillArray.Accepted (f : FillArray) : Prop := ∃ units dexPc, parse units dexPc = .ok { f with offset := 0 }

/-- What a unit holds when its offsets are assigned: an instruction list made by the list operations, pools made by adding
    literals, fill-arrays that were accepted, and switch tables that were resolved against labels of the list, whatever
    happened to the list since. -/
structure MethodUnit.Content (u : MethodUnit) : Prop where
  list : u.list.Reachable
  codePointers : u.data.codePointers.OfPointers
  methodPointers : u.data.methodPointers.OfPointers
  switchTables : ∃ u₀ u₁ : MethodUnit, u₀.list.Reachable ∧ u₀.LabelsAllocated ∧ resolveSwitches u₀ = .ok () u₁ ∧
    u.data.switchTables = u₁.data.switchTables ∧ u₁.list.Edits u.list
  fillArrays : ∀ f ∈ u.data.fillArrays, f.Accepted

theorem LiteralPool.OfPointers.kinds {p : LiteralPool} (h : p.OfPointers) :
    ∀ lit ∈ p.literals, (InvokeKind.ofOperand? lit.tag).isSome = true := by
  induction h with
  | empty => exact fun _ hlit => absurd hlit List.not_mem_nil
  | @add p p' target size kind id _ hadd ih =>
    obtain ⟨estimate, -, hadd⟩ := Checked.bind_eq_ok.mp hadd
    cases hadd
    intro lit hlit
    rcases List.mem_cons.mp hlit with rfl | hlit
    · simp [InvokeKind.ofOperand?_toOperand]
    · exact ih lit hlit
  | assign _ hassign ih =>
    obtain ⟨start, -, hspreads⟩ := assignPointers_eq_ok.mp hassign
    intro lit hlit
    obtain ⟨lit₀, hlit₀, o, rfl⟩ := mem_arrange hspreads.literals hlit
    exact ih lit₀ hlit₀

theorem requireUnits_eq_ok {units : Array UInt16} {needed : Nat} :
    requireUnits units needed = .ok () ↔ needed ≤ units.size := by
  rw [requireUnits]
  split <;> simp <;> omega

/-- A payload that was taken is kept as it stands, and it is as long as its size says. -/
theorem FillArray.parse_eq_ok {units : Array UInt16} {dexPc : UInt32} {f : FillArray} (h : parse units dexPc = .ok f) :
    f = { units, dexPc, size := f.size } ∧ unitsFor f.size.toNat ≤ units.size := by
  obtain ⟨_, -, h⟩ := Checked.bind_eq_ok.mp h
  obtain ⟨found, -, h⟩ := Checked.bind_eq_ok.mp h
  split at h
  · cases h
  obtain ⟨width, -, h⟩ := Checked.bind_eq_ok.mp h
  obtain ⟨low, -, h⟩ := Checked.bind_eq_ok.mp h
  obtain ⟨high, -, h⟩ := Checked.bind_eq_ok.mp h
  dsimp only at h
  split at h
  · cases h
  rename_i hsize
  obtain ⟨_, hunits, h⟩ := Checked.bind_eq_ok.mp h
  cases h
  refine ⟨rfl, ?_⟩
  rw [UInt32.toNat_ofNat_of_lt' (Nat.not_le.mp hsize)]
  exact requireUnits_eq_ok.mp hunits

theorem FillArray.accepted_of_parse {units : Array UInt16} {dexPc : UInt32} {f : FillArray}
    (h : parse units dexPc = .ok f) : f.Accepted := by
  have hf := (parse_eq_ok h).1
  exact ⟨units, dexPc, by rw [h, hf]⟩

theorem FillArray.Accepted.units_le {f : FillArray} (h : f.Accepted) : unitsFor f.size.toNat ≤ f.units.size := by
  obtain ⟨units, dexPc, h⟩ := h
  obtain ⟨hf, hunits⟩ := parse_eq_ok h
  rw [congrArg FillArray.units hf]
  exact hunits

/-- A case leads to an allocated instruction, be it a label or a case label. -/
theorem SwitchTable.Resolved.of_redirected {u u' : MethodUnit} {ids : List InstrId} {cases : InstrId → List InstrId}
    {plain t : SwitchTable} (ha : u.LabelsAllocated) (hu : MethodUnit.Resolving u ids cases u')
    (hp : u.labelling.PlainTargets plain) (hr : Redirected cases plain t) : t.Resolved u'.list := by
  have hpayload : t.payload = plain.payload := by rw [hr.same]
  refine ⟨?_, fun target htarget => ?_, fun _ => hpayload ▸ hp.keys⟩
  · rw [hpayload, ← hp.count, ← Array.length_toList, ← Array.length_toList, hr.targets.length_eq]
  · obtain ⟨k, hk, rfl⟩ := List.getElem_of_mem htarget
    have hk' : k < plain.targets.toList.length := hr.targets.length_eq ▸ hk
    obtain ⟨pc, hpc⟩ := hp.labels _ (List.getElem_mem hk')
    rcases hr.targets.get hk' hk with heq | hmem
    · have hlabel := Nat.lt_of_lt_of_le (ha _ _ hpc) hu.list.size_le
      exact (show t.targets.toList[k] = plain.targets.toList[k] from heq) ▸ hlabel
    · exact hu.list.lt_size hmem

theorem SwitchTable.Resolved.mono {l l' : InstrList} {t : SwitchTable} (h : t.Resolved l)
    (hsize : l.arena.size ≤ l'.arena.size) (offset : UInt32) : Resolved l' { t with offset } :=
  ⟨h.count, fun target ht => Nat.lt_of_lt_of_le (h.targets target ht) hsize, h.keys⟩

theorem MethodUnit.Content.installable {u : MethodUnit} (h : u.Content) : u.data.Installable u.list where
  codePointers := h.codePointers.kinds
  methodPointers := h.methodPointers.kinds
  switchTables := by
    obtain ⟨u₀, u₁, hlist, ha, hrun, htables, hedits⟩ := h.switchTables
    obtain ⟨ids, hlinks⟩ := hlist.links
    obtain ⟨⟨plain, count⟩, hplain, -, cases, hu₁, hredirected⟩ := (resolveSwitches_follows hlinks ha).ok hrun
    have hsize := (hedits.evolves hu₁.list.links).size_le
    intro t ht
    rw [htables] at ht
    obtain ⟨k, hk, rfl⟩ := List.getElem_of_mem ht
    have hk' : k < plain.length := hredirected.length_eq ▸ hk
    have hresolved := SwitchTable.Resolved.of_redirected ha hu₁
      (Labelling.tableTargets_eq_ok hplain _ (List.getElem_mem hk'))
      (hredirected.get hk' hk)
    exact hresolved.mono hsize _
  fillArrays f hf := (h.fillArrays f hf).units_le

/-- A layout changes offsets only. -/
theorem DataSections.Installable.assign {s d : DataSections} {codeSize : UInt32} {layout : DataLayout}
    {l l' : InstrList} (h : s.Installable l) (ha : s.assign codeSize 4 = .ok (d, layout))
    (hsize : l.arena.size ≤ l'.arena.size) : d.Installable l' := by
  obtain ⟨_, _, _, _, hspread⟩ := spread_of_assign ha
  refine ⟨fun lit hlit => ?_, fun lit hlit => ?_, fun t ht => ?_, fun f hf => ?_⟩
  · obtain ⟨lit₀, hlit₀, o, rfl⟩ := mem_arrange hspread.codePointers.literals hlit
    exact h.codePointers lit₀ hlit₀
  · obtain ⟨lit₀, hlit₀, o, rfl⟩ := mem_arrange hspread.methodPointers.literals hlit
    exact h.methodPointers lit₀ hlit₀
  · obtain ⟨t₀, ht₀, o, rfl⟩ := mem_arrange hspread.switchTables ht
    exact (h.switchTables t₀ ht₀).mono hsize o
  · obtain ⟨f₀, hf₀, o, rfl⟩ := mem_arrange hspread.fillArrays hf
    exact h.fillArrays f₀ hf₀

/-! ### What the image holds -/

/-- Case `i` of a table in an image: its displacement, in a sparse table behind its key. -/
def HoldsCase (code : Bytes) (t : SwitchTable) (i : Nat) (displacement : UInt32) : Prop :=
  match t.payload.kind with
  | .packed => StandsAt code (t.offset.toNat + i * 4) (littleEndian 4 displacement.toNat)
  | .sparse => ∃ key, t.payload.key i = .ok key ∧
      StandsAt code (t.offset.toNat + i * 8) (littleEndian 4 key.toUInt32.toNat ++ littleEndian 4 displacement.toNat)

/-- The code is the image of a unit whose offsets are assigned. -/
structure MethodUnit.HasImage (width : UInt32) (u : MethodUnit) (code : Bytes) : Prop where
  size : code.size = u.layout.totalSize.toNat
  /-- The low bytes of the opcode above the low half of the first operand, filled with zeros. -/
  instructions : ∀ id i opcode, (id, i) ∈ u.list.live → i.opcode = .target opcode →
    StandsAt code i.offset.toNat
      (littleEndian (min width.toNat 8) (opcode.toNat * 2 ^ 16 + i.operands[0].toUInt32.toNat % 2 ^ 16) ++
        List.replicate (width.toNat - 8) 0)
  words : ∀ lit ∈ u.data.words.literals, StandsAt code lit.offset.toNat (littleEndian 4 lit.value.toUInt32.toNat)
  codePointers : ∀ lit ∈ u.data.codePointers.literals,
    StandsAt code lit.offset.toNat (littleEndian u.pointerSize.toNat lit.value.toUInt32.toNat)
  methodPointers : ∀ lit ∈ u.data.methodPointers.literals,
    StandsAt code lit.offset.toNat (littleEndian u.pointerSize.toNat lit.value.toUInt32.toNat)
  /-- Every case has a target, and its displacement from the origin of the table stands in case order. -/
  switchTables : ∀ t ∈ u.data.switchTables, ∀ base, t.origin u.list u.config.branchOrigin = .ok base →
    ∀ i < t.payload.size, ∃ target instr, t.targets[i]? = some target ∧ u.list.get target = .ok instr ∧
      HoldsCase code t i (instr.offset - base)
  fillArrays : ∀ f ∈ u.data.fillArrays, StandsAt code f.offset.toNat f.bytes
  /-- What none of these covers is zero. -/
  gaps : ∀ k < code.size, ¬Covers (u.placements width) k → code[k]? = some 0

namespace MethodUnit
variable {u : MethodUnit} {width : UInt32} {stop : Nat}

theorem mem_placements {p : Placement} : p ∈ u.placements width ↔
    p ∈ FixedWidth.placements width u.list.entries ∨ p = ⟨u.layout.dataOffset, []⟩ ∨
      p ∈ u.data.words.placements ∨ p ∈ u.data.codePointers.placements ∨ p ∈ u.data.methodPointers.placements ∨
      (∃ t ∈ u.data.switchTables, ⟨t.offset, t.image u.list u.config.branchOrigin⟩ = p) ∨
      (∃ f ∈ u.data.fillArrays, ⟨f.offset, f.bytes⟩ = p) ∨ p = ⟨u.layout.totalSize, []⟩ := by
  simp only [placements, DataSections.placements, List.mem_append, List.mem_singleton, List.mem_map, or_assoc]

theorem size_putAll_placements (h : Ascends 0 (u.placements width) stop) :
    (Bytes.putAll #[] (u.placements width)).size = u.layout.totalSize.toNat := by
  have hsplit : ∃ front, u.placements width = front ++ [⟨u.layout.totalSize, []⟩] := by
    simp only [placements, DataSections.placements, ← List.append_assoc]
    exact ⟨_, rfl⟩
  obtain ⟨front, hfront⟩ := hsplit
  rw [hfront] at h ⊢
  exact Bytes.size_putAll_concat h

theorem holdsCase_of_image {code : Bytes} {t : SwitchTable} {base : UInt32} {l : InstrList} (hr : t.Resolved l)
    (h : StandsAt code t.offset.toNat (SwitchTable.casesImage t.payload base 0 (t.targets.toList.map l.offsetOf)))
    {i : Nat} (hi : i < t.payload.size) :
    ∃ target instr, t.targets[i]? = some target ∧ l.get target = .ok instr ∧ HoldsCase code t i (instr.offset - base) := by
  have hlt : i < t.targets.size := hr.count ▸ hi
  obtain ⟨instr, hinstr⟩ := InstrList.getElem?_contents_of_lt (hr.targets t.targets[i] (by simp))
  have hoffset : (t.targets.toList.map l.offsetOf)[i]? = some instr.offset := by
    simp [InstrList.offsetOf, hlt, hinstr]
  have hcase := SwitchTable.standsAt_case (fun hk k hlt => hr.keys hk k (by simpa [hr.count] using hlt)) h hoffset
  refine ⟨t.targets[i], instr, Array.getElem?_eq_getElem hlt, InstrList.get_eq_ok.mpr hinstr, ?_⟩
  rw [Nat.zero_add] at hcase
  rw [HoldsCase]
  split
  · rename_i hk
    simpa [SwitchPayload.keyBytes, SwitchPayload.caseBytes, hk] using hcase
  · rename_i hk
    obtain ⟨key, hkey⟩ := hr.keys hk i hi
    refine ⟨key, hkey, ?_⟩
    simpa [SwitchPayload.keyBytes, SwitchPayload.caseBytes, hk, hkey] using hcase

/-- Placing everything that a unit holds gives its image. -/
theorem hasImage_of_ascends (hd : u.data.Installable u.list) (h : Ascends 0 (u.placements width) stop) :
    u.HasImage width (Bytes.putAll #[] (u.placements width)) := by
  have hempty : Ascends (Array.size (#[] : Bytes)) (u.placements width) stop := h
  -- Whatever is placed stands at its place, so each part is told by where it is among the placements.
  have hstands : ∀ p ∈ u.placements width, StandsAt (Bytes.putAll #[] (u.placements width)) p.start p.bytes :=
    fun p hp => Bytes.standsAt_putAll hempty hp
  refine ⟨size_putAll_placements h, ?_, ?_, ?_, ?_, ?_, ?_, fun k hk hc => Bytes.putAll_gap hempty (Nat.zero_le _) hk hc⟩
  · intro id i opcode hi hop
    obtain ⟨hentry, hlive⟩ := List.mem_filter.mp hi
    refine hstands ⟨i.offset, FixedWidth.instrBytes width opcode i⟩ (mem_placements.mpr (.inl ?_))
    refine List.mem_filterMap.mpr ⟨(id, i), hentry, ?_⟩
    simp only [Bool.not_eq_true'] at hlive
    simp [FixedWidth.placement?, hlive, hop]
  · intro lit hlit
    exact hstands lit.placement (mem_placements.mpr (.inr (.inr (.inl (List.mem_map_of_mem hlit)))))
  · intro lit hlit
    rw [u.pointerSize_eq]
    exact hstands lit.placement (mem_placements.mpr (.inr (.inr (.inr (.inl (List.mem_map_of_mem hlit))))))
  · intro lit hlit
    rw [u.pointerSize_eq]
    exact hstands lit.placement (mem_placements.mpr (.inr (.inr (.inr (.inr (.inl (List.mem_map_of_mem hlit)))))))
  · intro t ht base hbase i hi
    have htable := hstands _ (mem_placements.mpr (.inr (.inr (.inr (.inr (.inr (.inl ⟨t, ht, rfl⟩)))))))
    rw [SwitchTable.image, hbase] at htable
    exact holdsCase_of_image (hd.switchTables t ht) htable hi
  · intro f hf
    exact hstands _ (mem_placements.mpr (.inr (.inr (.inr (.inr (.inr (.inr (.inl ⟨f, hf, rfl⟩))))))))

/-- A layout leaves room for everything, also once the list is stamped. -/
theorem ascends_of_laidOut {u' : MethodUnit} {stamped : List (InstrId × Instruction)} {data : DataSections}
    {layout : DataLayout} (hi : u.data.Installable u.list)
    (h : laidOut width u.list.entries u.data = .ok (stamped, data, layout))
    (hlist : u'.list.entries = stamped) (hdata : u'.data = data) (hlayout : u'.layout = layout) :
    Ascends 0 (u'.placements width) layout.totalSize.toNat := by
  obtain ⟨codeSize, hcode, hassign⟩ := laidOut_eq_ok.mp h
  rw [placements, hlist, hdata, hlayout]
  refine (FixedWidth.ascends_placements hcode).append (DataSections.ascends_placements hassign _ ?_)
  exact fun t ht offset => SwitchTable.image_length_le (hi.switchTables t ht).count

/-- Once the offsets of a unit are assigned, which leaves all else in it as it was, and the origins of its switch tables
    can be told, installing it succeeds and gives an image that holds everything at its offset. -/
theorem install_hasImage {u u' : MethodUnit} {width : UInt32} {layout : DataLayout} (hc : u.Content)
    (ha : assignOffsets (.fixedWidth width) u = .ok layout u')
    (ho : ∀ t ∈ u'.data.switchTables, ∃ base, t.origin u'.list u'.config.branchOrigin = .ok base) :
    u'.withoutOffsets = u.withoutOffsets ∧ ∃ u'', install (.fixedWidth width) u' = .ok () u'' ∧
      u''.code.size = layout.totalSize.toNat ∧ u'.HasImage width u''.code := by
  obtain ⟨ids, hlinks⟩ := hc.list.links
  refine ⟨withoutOffsets_of_assignOffsets hlinks ha, ?_⟩
  obtain ⟨⟨stamped, data, layout⟩, hlaid, rfl, hentries, hkept, hu'⟩ := (assignOffsets_follows hlinks).ok ha
  have hdata : u'.data = data := by rw [hu']
  have hlayout : u'.layout = layout := by rw [hu']
  have hascends := ascends_of_laidOut hc.installable hlaid hentries hdata hlayout
  have hinstallable : u'.data.Installable u'.list := by
    obtain ⟨codeSize, -, hassign⟩ := laidOut_eq_ok.mp hlaid
    rw [hdata]
    exact hc.installable.assign hassign (Nat.le_of_eq hkept.size.symm)
  have hinstall := install_follows hinstallable hascends
  rw [checkOrigins_of_ok ho] at hinstall
  obtain ⟨_, u'', hrun, hcode, -, -⟩ := hinstall.exists_ok
  refine ⟨u'', hrun, ?_, ?_⟩
  · rw [hcode, size_putAll_placements hascends, hlayout]
  · rw [hcode]
    exact hasImage_of_ascends hinstallable hascends

/-- A unit with a label, a dispatch through a sparse table, a word, a code pointer and a fill-array. -/
def sample : MethodUnit where
  list := {
    arena := #[
      { instr := .pseudo .normalBlockLabel 0, next := some 1, linked := true },
      { instr := (Instruction.target 0x1234 0 [7]).withFixup .switchTable, prev := some 0, linked := true }]
    first := some 0
    last := some 1
    length := 2 }
  data := {
    words := { literals := [{ value := 0x01020304 }], estimatedSize := 4 }
    codePointers := { literals := [{ value := 9, tag := InvokeKind.virtual.toOperand }], estimatedSize := 4 }
    switchTables := [{ payload := .sparse [(5, 0)], dexPc := 0, anchor := some 1, targets := #[0] }]
    fillArrays := [{ units := #[0x0300, 2, 2, 0, 0x0201, 0x0403], dexPc := 0, size := 12 }] }
  blockLabels := [(0, 0)]

theorem sample_content : sample.Content := by
  have hreachable : sample.list.Reachable :=
    ⟨false, none, .step (.step .refl ⟨.push (.pseudo .normalBlockLabel 0), .inl ⟨_, rfl⟩⟩)
      ⟨.push ((Instruction.target 0x1234 0 [7]).withFixup .switchTable), .inl ⟨_, rfl⟩⟩⟩
  refine ⟨hreachable, @LiteralPool.OfPointers.add {} _ 9 4 .virtual 0 .empty rfl, .empty,
    ⟨sample, sample, hreachable, ?_, rfl, rfl, .refl⟩, ?_⟩
  · intro pc label hmem
    cases List.mem_singleton.mp hmem
    decide
  · intro f hf
    cases List.mem_singleton.mp hf
    exact ⟨#[0x0300, 2, 2, 0, 0x0201, 0x0403], 0, rfl⟩

/-- Three bytes of code, one of padding, and 28 bytes of data: the word, the pointer, the key of the case and how far its
    label is behind the dispatch, and the payload of the fill-array. -/
theorem install_hasImage_sample : sample.Content ∧ ∃ u' u'', assignOffsets (.fixedWidth 3) sample = .ok ⟨4, 32⟩ u' ∧
    u'.withoutOffsets = sample.withoutOffsets ∧ install (.fixedWidth 3) u' = .ok () u'' ∧
    u''.code = #[0x07, 0x00, 0x34, 0x00, 0x04, 0x03, 0x02, 0x01, 0x09, 0x00, 0x00, 0x00,
      0x05, 0x00, 0x00, 0x00, 0xfc, 0xff, 0xff, 0xff,
      0x00, 0x03, 0x02, 0x00, 0x02, 0x00, 0x00, 0x00, 0x01, 0x02, 0x03, 0x04] ∧
    u'.HasImage 3 u''.code := by
  have ha : assignOffsets (.fixedWidth 3) sample =
      .ok ⟨4, 32⟩ (Stateful.reached (assignOffsets (.fixedWidth 3) sample)) := rfl
  obtain ⟨hsame, u'', hrun, -, himage⟩ := install_hasImage sample_content ha fun t ht => by
    cases List.mem_singleton.mp ht
    exact ⟨_, rfl⟩
  have hreached : u'' = Stateful.reached (install (.fixedWidth 3)
      (Stateful.reached (assignOffsets (.fixedWidth 3) sample))) := by rw [hrun]; rfl
  refine ⟨sample_content, _, u'', ha, hsame, hrun, ?_, himage⟩
  rw [hreached]
  decide +kernel

end MethodUnit

end MethodAssembler
