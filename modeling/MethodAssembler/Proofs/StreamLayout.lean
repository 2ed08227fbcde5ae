import MethodAssembler.Proofs.Outline

/-! # Layout of a stream

With four bytes to an instruction, no alignment leaves a gap: a layout ends behind four bytes for each machine instruction,
and the safepoint of a call stands behind as many as there are up to the call. -/

namespace MethodAssembler

/-! ### Four bytes to an instruction -/

namespace FixedWidth
variable {reached stop : UInt32} {i : Instruction} {id : InstrId} {entries stamped : List (InstrId × Instruction)}

/-- How many entries take code. -/
def liveCount (entries : List (InstrId × Instruction)) : Nat := entries.countP (·.2.isLiveTarget)

theorem liveCount_cons : liveCount ((id, i) :: entries) = liveCount entries + i.isLiveTarget.toNat := by
  rw [liveCount, List.countP_cons, ← liveCount]
  cases i.isLiveTarget <;> rfl

theorem extent_four (i : Instruction) : extent 4 i = 4 * i.isLiveTarget.toNat := by
  unfold extent
  cases i.isLiveTarget <;> rfl

theorem place_four_eq_ok {offset next : UInt32} (h : 4 ∣ reached.toNat) : place 4 reached i = .ok (offset, next) ↔
    offset = reached ∧ next.toNat = reached.toNat + 4 * i.isLiveTarget.toNat := by
  rw [place_eq_ok_iff, startAt_of_dvd i h, UInt32.toNat_inj, extent_four]
  exact and_congr_right fun hoffset => by rw [hoffset]

theorem codeEnd_four (entries : List (InstrId × Instruction)) {n : Nat} (h : 4 ∣ n) :
    codeEnd 4 entries n = n + 4 * liveCount entries := by
  induction entries generalizing n with
  | nil => rfl
  | cons e entries ih =>
    obtain ⟨id, i⟩ := e
    rw [codeEnd, startAt_of_dvd i h, extent_four, ih (by omega), liveCount_cons]
    omega

theorem layOut_four_stop (hr : 4 ∣ reached.toNat) (h : layOut 4 entries reached = .ok (stamped, stop)) :
    stop.toNat = reached.toNat + 4 * liveCount entries :=
  (layOut_stop h).trans (codeEnd_four entries hr)

theorem layOut_four_of_lt (hr : 4 ∣ reached.toNat) (hlt : reached.toNat + 4 * liveCount entries < 2 ^ 32) :
    ∃ stamped stop, layOut 4 entries reached = .ok (stamped, stop) :=
  layOut_of_lt (by rwa [codeEnd_four entries hr])

end FixedWidth

/-! ### Markers -/

section Markers
variable {width reached stop : UInt32} {entries stamped : List (InstrId × Instruction)}

theorem markersOf_cons (id : InstrId) (i : Instruction) (entries : List (InstrId × Instruction)) :
    markersOf ((id, i) :: entries) =
      (i.mappingKind.map fun kind => (kind, i.mappingEntry)).toList ++ markersOf entries := by
  cases h : i.mappingKind <;> simp [markersOf, h]

theorem markersOf_append (xs ys : List (InstrId × Instruction)) : markersOf (xs ++ ys) = markersOf xs ++ markersOf ys :=
  List.filterMap_append

namespace MappingTable

theorem length_entriesOf (markers : List (MappingKind × MappingEntry)) :
    (entriesOf .pcToDex markers).length + (entriesOf .dexToPc markers).length = markers.length := by
  induction markers with
  | nil => rfl
  | cons marker markers ih =>
    obtain ⟨kind, e⟩ := marker
    cases kind <;> simp only [entriesOf, if_true, reduceCtorEq, if_false, List.length_cons] <;> omega

/-- The markers of a layout can be encoded: their offsets never decrease. -/
theorem ordered_markersOf (h : FixedWidth.layOut width entries reached = .ok (stamped, stop)) {last : MappingEntry}
    (hlast : last.nativeOffset.toNat ≤ reached.toNat) (kind : MappingKind) :
    Ordered last (entriesOf kind (markersOf stamped)) := by
  induction entries generalizing reached stamped last with
  | nil =>
    cases h
    trivial
  | cons e entries ih =>
    obtain ⟨id, i⟩ := e
    obtain ⟨offset, next, tail, hp, ht, rfl⟩ := FixedWidth.layOut_cons.mp h
    obtain ⟨hle, hnext⟩ := FixedWidth.place_eq_ok hp
    -- An instruction without a marker of this kind leaves the last entry as it was.
    have hskip := @ih next tail ht last (by omega)
    rw [markersOf_cons]
    cases hk : Instruction.mappingKind { i with offset } with
    | none => exact hskip
    | some k =>
      simp only [Option.map_some, Option.toList_some, List.singleton_append, entriesOf]
      split
      · exact ⟨UInt32.le_iff_toNat_le.mpr (Nat.le_trans hlast hle), ih ht (show offset.toNat ≤ next.toNat by omega)⟩
      · exact hskip

theorem length_markersOf_le (entries : List (InstrId × Instruction)) : (markersOf entries).length ≤ entries.length :=
  List.length_filterMap_le _ _

end MappingTable

end Markers

/-! ### The stream -/

namespace StreamItem

/-- Whether an instruction of the stream takes code. -/
def isMachine : StreamItem → Bool
  | .op _ _ _ nop => !nop
  | .call .. | .invokeCode .. | .invokeMethod .. | .loadWord .. | .loadWide .. | .switch .. => true
  | .label _ | .exportPc _ | .align4 => false

/-- The source PC of a call. -/
def callPc? : StreamItem → Option UInt32
  | .call _ dexPc _ | .invokeCode _ dexPc _ _ | .invokeMethod _ dexPc _ _ => some dexPc
  | _ => none

/-- The source PC that an instruction exports. -/
def exportedPc? : StreamItem → Option UInt32
  | .exportPc dexPc => some dexPc
  | _ => none

/-- The source PC that an instruction enters into a block of the mapping table. -/
def mappedPc? : MappingKind → StreamItem → Option UInt32
  | .pcToDex, item => item.callPc?
  | .dexToPc, item => item.exportedPc?

end StreamItem

/-- The number of machine instructions of a stream. -/
def machineCount (items : List StreamItem) : Nat := items.countP StreamItem.isMachine

/-- The return addresses of the calls in a stream that follows `before` machine instructions, with their source PCs. -/
def returnAddresses : (before : Nat) → List StreamItem → List (Nat × UInt32)
  | _, [] => []
  | before, item :: rest =>
    (item.callPc?.map fun pc => (4 * (before + item.isMachine.toNat), pc)).toList ++
      returnAddresses (before + item.isMachine.toNat) rest

/-- An entry as an address and a source PC. -/
def MappingEntry.returnAddress (e : MappingEntry) : Nat × UInt32 := (e.nativeOffset.toNat, e.dexPc)

theorem MappingEntry.returnAddress_injective : Function.Injective MappingEntry.returnAddress := by
  rintro ⟨offset, pc⟩ ⟨offset', pc'⟩ h
  obtain ⟨hoffset, hpc⟩ := Prod.mk.inj h
  exact congrArg₂ MappingEntry.mk (UInt32.toNat_inj.mp hoffset) hpc

section Stream
open MappingTable
variable {reached stop : UInt32} {entries stamped : List (InstrId × Instruction)} {before : Nat}

theorem StreamItem.countP_records (item : StreamItem) :
    item.records.countP Instruction.isLiveTarget = item.isMachine.toNat := by
  cases item with
  | op opcode dexPc operands nop => cases nop <;> rfl
  | label | call | invokeCode | invokeMethod | loadWord | loadWide | switch | exportPc | align4 => rfl

theorem liveCount_eq (entries : List (InstrId × Instruction)) :
    FixedWidth.liveCount entries = (entries.map (·.2)).countP Instruction.isLiveTarget := by
  rw [FixedWidth.liveCount, List.countP_map]
  rfl

theorem liveCount_records {item : StreamItem} (h : entries.map (·.2) = item.records) :
    FixedWidth.liveCount entries = item.isMachine.toNat := by
  rw [liveCount_eq, h, item.countP_records]

theorem mappingKind_of_live {i : Instruction} (h : i.isLiveTarget = true) : i.mappingKind = none := by
  cases hop : i.opcode <;> simp_all [Instruction.isLiveTarget, Instruction.mappingKind, Opcode.isPseudo]

/-- A marker takes no code, so a layout of it ends where it stands. -/
theorem markersOf_single {i : Instruction} (he : entries.map (·.2) = [i]) (hr : 4 ∣ reached.toNat)
    (h : FixedWidth.layOut 4 entries reached = .ok (stamped, stop)) :
    markersOf stamped = (i.mappingKind.map fun kind => (kind, ⟨stop, i.dexPc⟩)).toList := by
  obtain ⟨⟨id, i⟩, rfl, rfl⟩ := List.map_eq_singleton_iff.mp he
  obtain ⟨offset, next, tail, hp, ht, rfl⟩ := FixedWidth.layOut_cons.mp h
  cases ht
  obtain ⟨rfl, hstop⟩ := (FixedWidth.place_four_eq_ok hr).mp hp
  rw [markersOf_cons]
  cases hlive : i.isLiveTarget with
  | true =>
    have hnone : Instruction.mappingKind { i with offset } = none := mappingKind_of_live hlive
    rw [hnone, mappingKind_of_live hlive]
    rfl
  | false =>
    rw [hlive, Bool.toNat_false, Nat.mul_zero, Nat.add_zero] at hstop
    rw [UInt32.toNat_inj.mp hstop]
    exact List.append_nil _

/-- The safepoint of a call stands right behind it. -/
theorem markersOf_call {i : Instruction} (hlive : i.isLiveTarget = true) (he : entries.map (·.2) = i.callRecords)
    (hr : 4 ∣ reached.toNat) (h : FixedWidth.layOut 4 entries reached = .ok (stamped, stop)) :
    markersOf stamped = [(.pcToDex, ⟨stop, i.dexPc⟩)] := by
  obtain ⟨⟨id, call⟩, rest, rfl, hcall, hrest⟩ := List.map_eq_cons_iff.mp he
  cases hcall
  obtain ⟨offset, next, tail, hp, ht, rfl⟩ := FixedWidth.layOut_cons.mp h
  obtain ⟨rfl, hnext⟩ := (FixedWidth.place_four_eq_ok hr).mp hp
  have hnone : Instruction.mappingKind { i with defMask := Resource.all, offset } = none := mappingKind_of_live hlive
  rw [markersOf_cons, hnone, markersOf_single hrest (by omega) ht]
  rfl

/-- The marker of an instruction of the stream stands where the layout of the instruction ends. -/
theorem entriesOf_item {item : StreamItem} (kind : MappingKind) (he : entries.map (·.2) = item.records)
    (hr : 4 ∣ reached.toNat) (h : FixedWidth.layOut 4 entries reached = .ok (stamped, stop)) :
    entriesOf kind (markersOf stamped) = ((item.mappedPc? kind).map fun pc => ⟨stop, pc⟩).toList := by
  have hcall : ∀ i : Instruction, i.isLiveTarget = true → item.records = i.callRecords →
      markersOf stamped = [(.pcToDex, ⟨stop, i.dexPc⟩)] :=
    fun i hlive hrecords => markersOf_call hlive (he.trans hrecords) hr h
  have hother : ∀ i : Instruction, item.records = [i] →
      markersOf stamped = (i.mappingKind.map fun kind => (kind, ⟨stop, i.dexPc⟩)).toList :=
    fun i hrecords => markersOf_single (he.trans hrecords) hr h
  cases item with
  | call | invokeCode | invokeMethod =>
    rw [hcall _ rfl rfl]
    cases kind <;> rfl
  | op opcode dexPc operands nop =>
    rw [hother _ rfl]
    cases nop <;> cases kind <;> rfl
  | label | loadWord | loadWide | switch | exportPc | align4 =>
    rw [hother _ rfl]
    cases kind <;> rfl

theorem safepoints_of_item {item : StreamItem} (he : entries.map (·.2) = item.records) (hr : reached.toNat = 4 * before)
    (h : FixedWidth.layOut 4 entries reached = .ok (stamped, stop)) :
    (entriesOf .pcToDex (markersOf stamped)).map MappingEntry.returnAddress =
      (item.callPc?.map fun pc => (4 * (before + item.isMachine.toNat), pc)).toList := by
  have hd : 4 ∣ reached.toNat := by omega
  have hstop := FixedWidth.layOut_four_stop hd h
  rw [liveCount_records he, hr, ← Nat.mul_add] at hstop
  rw [entriesOf_item .pcToDex he hd h, ← hstop, StreamItem.mappedPc?]
  cases item.callPc? <;> rfl

/-- The safepoints of a stream in its layout are the return addresses of its calls. -/
theorem safepoints_of_stream {items : List StreamItem} (he : entries.map (·.2) = items.flatMap StreamItem.records)
    (hr : reached.toNat = 4 * before) (h : FixedWidth.layOut 4 entries reached = .ok (stamped, stop)) :
    (entriesOf .pcToDex (markersOf stamped)).map MappingEntry.returnAddress = returnAddresses before items := by
  induction items generalizing entries stamped reached before with
  | nil =>
    cases List.map_eq_nil_iff.mp he
    cases h
    rfl
  | cons item items ih =>
    rw [List.flatMap_cons] at he
    obtain ⟨first, rest, rfl, hfirst, hrest⟩ := List.map_eq_append_iff.mp he
    obtain ⟨front, middle, back, hfront, hback, rfl⟩ := FixedWidth.layOut_append.mp h
    have hmiddle := FixedWidth.layOut_four_stop (by omega) hfront
    rw [liveCount_records hfirst] at hmiddle
    have hitem := safepoints_of_item hfirst hr hfront
    have hitems := @ih middle rest back (before + item.isMachine.toNat) hrest (by omega) hback
    rw [markersOf_append, entriesOf_append, List.map_append, hitem, hitems, returnAddresses]

/-- A call with this source PC returns to this address: it is four times the number of machine instructions up to and
    including the call. -/
def ReturnsTo (items : List StreamItem) (pc : UInt32) (address : Nat) : Prop :=
  ∃ pre call post, items = pre ++ call :: post ∧ call.callPc? = some pc ∧ address = 4 * machineCount (pre ++ [call])

theorem machineCount_append (xs ys : List StreamItem) : machineCount (xs ++ ys) = machineCount xs + machineCount ys :=
  List.countP_append

theorem machineCount_cons (item : StreamItem) (items : List StreamItem) :
    machineCount (item :: items) = item.isMachine.toNat + machineCount items := by
  rw [machineCount, List.countP_cons, ← machineCount, Nat.add_comm]
  cases item.isMachine <;> rfl

theorem machineCount_singleton (item : StreamItem) : machineCount [item] = item.isMachine.toNat :=
  machineCount_cons item []

theorem countP_flatMap_records (items : List StreamItem) :
    (items.flatMap StreamItem.records).countP Instruction.isLiveTarget = machineCount items := by
  induction items with
  | nil => rfl
  | cons item items ih => rw [List.flatMap_cons, List.countP_append, ih, item.countP_records, machineCount_cons]

/-- A stream is laid out in four bytes for each machine instruction. -/
theorem layOut_stream_stop {items : List StreamItem} (he : entries.map (·.2) = items.flatMap StreamItem.records)
    (h : FixedWidth.layOut 4 entries 0 = .ok (stamped, stop)) : stop.toNat = 4 * machineCount items := by
  have hzero : 4 ∣ (0 : UInt32).toNat := Nat.dvd_zero 4
  have hstop := FixedWidth.layOut_four_stop hzero h
  rw [liveCount_eq, he, countP_flatMap_records] at hstop
  exact hstop.trans (Nat.zero_add _)

theorem StreamItem.isMachine_of_call {item : StreamItem} {pc : UInt32} (h : item.callPc? = some pc) :
    item.isMachine = true := by
  cases item <;> first | rfl | cases h

theorem returnAddresses_append (xs ys : List StreamItem) : returnAddresses before (xs ++ ys) =
    returnAddresses before xs ++ returnAddresses (before + machineCount xs) ys := by
  induction xs generalizing before with
  | nil => rfl
  | cons x xs ih =>
    rw [List.cons_append, returnAddresses, returnAddresses, ih, machineCount_cons, List.append_assoc, Nat.add_assoc]

theorem mem_returnAddresses {items : List StreamItem} {pc : UInt32} {address : Nat} :
    (address, pc) ∈ returnAddresses before items ↔ ∃ pre call post, items = pre ++ call :: post ∧
      call.callPc? = some pc ∧ address = 4 * (before + machineCount (pre ++ [call])) := by
  constructor
  · intro h
    induction items generalizing before with
    | nil => cases h
    | cons item items ih =>
      rcases List.mem_append.mp h with hitem | hitems
      · obtain ⟨pc', hpc, heq⟩ := Option.map_eq_some_iff.mp (Option.mem_toList.mp hitem)
        cases heq
        exact ⟨[], item, items, rfl, hpc, by rw [List.nil_append, machineCount_singleton]⟩
      · obtain ⟨pre, call, post, rfl, hpc, rfl⟩ := ih hitems
        refine ⟨item :: pre, call, post, rfl, hpc, ?_⟩
        rw [List.cons_append, machineCount_cons, Nat.add_assoc]
  · -- The call itself has the first address behind those of the instructions before it.
    rintro ⟨pre, call, post, rfl, hpc, rfl⟩
    rw [returnAddresses_append]
    refine List.mem_append_right _ (List.mem_append_left _ ?_)
    rw [hpc, machineCount_append, machineCount_singleton, Nat.add_assoc]
    exact List.mem_singleton_self _

theorem lt_of_mem_returnAddresses {items : List StreamItem} {pc : UInt32} {address : Nat}
    (h : (address, pc) ∈ returnAddresses before items) : 4 * before < address := by
  obtain ⟨pre, call, post, -, hpc, rfl⟩ := mem_returnAddresses.mp h
  rw [machineCount_append, machineCount_singleton, StreamItem.isMachine_of_call hpc, Bool.toNat_true]
  omega

/-- No two calls return to the same address. -/
theorem returnAddresses_unique {items : List StreamItem} {pc pc' : UInt32} {address : Nat}
    (h : (address, pc) ∈ returnAddresses before items) (h' : (address, pc') ∈ returnAddresses before items) : pc = pc' := by
  induction items generalizing before with
  | nil => cases h
  | cons item items ih =>
    rcases List.mem_append.mp h with hitem | hrest <;> rcases List.mem_append.mp h' with hitem' | hrest'
    · have heq := (Option.mem_toList.mp hitem).symm.trans (Option.mem_toList.mp hitem')
      exact (Prod.mk.inj (Option.some.inj heq)).2
    · obtain ⟨_, -, heq⟩ := Option.map_eq_some_iff.mp (Option.mem_toList.mp hitem)
      have hlt := lt_of_mem_returnAddresses hrest'
      have haddress := (Prod.mk.inj heq).1
      omega
    · obtain ⟨_, -, heq⟩ := Option.map_eq_some_iff.mp (Option.mem_toList.mp hitem')
      have hlt := lt_of_mem_returnAddresses hrest
      have haddress := (Prod.mk.inj heq).1
      omega
    · exact ih hrest hrest'

theorem returnsTo_iff {items : List StreamItem} {pc : UInt32} {address : Nat} :
    ReturnsTo items pc address ↔ (address, pc) ∈ returnAddresses 0 items := by
  rw [mem_returnAddresses]
  simp only [ReturnsTo, Nat.zero_add]

end Stream

end MethodAssembler
