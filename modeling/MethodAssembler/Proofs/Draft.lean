import MethodAssembler.Description.Compile
import MethodAssembler.Proofs.LiteralPool
import MethodAssembler.Proofs.Resolution

/-! # Drafts

What replaying a stream comes to, whether nops are retained or not: the records that were allocated, the labels and
dispatching instructions among them, and the data that were entered (`Draft`). Replaying a stream into a unit
follows drafting it: both stop with the same fault, or the unit holds what the draft says, its list being the
records in order without the nops it does not retain. -/

namespace MethodAssembler

/-! ### Drafting a stream -/

/-- The records of a call: it clobbers everything, and a safepoint follows. -/
def Instruction.callRecords (i : Instruction) : List Instruction :=
  [{ i with defMask := Resource.all }, .marker .safepointPc i.dexPc]

namespace StreamItem

/-- The records that are allocated for an instruction of the stream. -/
def records : StreamItem → List Instruction
  | .label dexPc => [.pseudo .normalBlockLabel dexPc]
  | .op opcode dexPc operands nop => [{ Instruction.target opcode dexPc operands with isNop := nop }]
  | .call opcode dexPc operands => (Instruction.target opcode dexPc operands).callRecords
  | .invokeCode opcode dexPc target _ | .invokeMethod opcode dexPc target _ =>
    ((Instruction.target opcode dexPc [target.toInt32]).withFixup .load).callRecords
  | .loadWord opcode dexPc value => [(Instruction.target opcode dexPc [value]).withFixup .load]
  | .loadWide opcode dexPc low high => [(Instruction.target opcode dexPc [low, high]).withFixup .load]
  | .switch opcode dexPc table => [(Instruction.target opcode dexPc [.ofNat table]).withFixup .switchTable]
  | .exportPc dexPc => [.marker .exportedPc dexPc]
  | .align4 => [.pseudo .align4 0]

/-- The labels among the records of an instruction of which the first gets the id `base`. -/
def labels (base : InstrId) : StreamItem → List (UInt32 × InstrId)
  | .label dexPc => [(dexPc, base)]
  | _ => []

/-- The dispatching instructions among the records of an instruction. -/
def anchors (base : InstrId) : StreamItem → Anchors
  | .switch _ _ table => [(table, base)]
  | _ => []

/-- What an instruction enters into the data of a method with `tables` switches. -/
def enterData (tables : Nat) (data : DataSections) : StreamItem → Checked DataSections
  | .invokeCode _ _ target kind =>
    (data.codePointers.sharePointer target kind 4).map fun (_, codePointers) => { data with codePointers }
  | .invokeMethod _ _ target kind =>
    (data.methodPointers.sharePointer target kind 4).map fun (_, methodPointers) => { data with methodPointers }
  | .loadWord _ _ value =>
    if (data.words.findNear value 0).isNone then (data.words.addWord value).map fun (_, words) => { data with words }
    else .ok data
  | .loadWide _ _ low high =>
    let (found, words) := data.words.findWide low high
    if found.isNone then (words.addWide low high).map fun (_, words) => { data with words }
    else .ok { data with words }
  | .switch _ dexPc table =>
    if tables ≤ table then .error (.refused (.malformed (.switchTableIndex dexPc table))) else .ok data
  | _ => .ok data

end StreamItem

/-- What replaying a stream has come to. -/
structure Draft where
  /-- The allocated instructions; each is named by its place. -/
  records : List Instruction := []
  labels : List (UInt32 × InstrId) := []
  anchors : Anchors := []
  data : DataSections := {}

/-- Room for `more` instructions in an arena that holds `count` of them: their new number. -/
def InstrList.reserveAll (limit : Option Nat) : (more count : Nat) → Checked Nat
  | 0, count => .ok count
  | more + 1, count => do reserveAll limit more (← reserve limit count)

theorem InstrList.reserveAll_one (limit : Option Nat) (count : Nat) : reserveAll limit 1 count = reserve limit count :=
  bind_pure _

namespace Draft

/-- The draft with one more instruction of the stream. -/
def enter (limit : Option Nat) (tables : Nat) (s : Draft) (item : StreamItem) : Checked Draft := do
  let data ← item.enterData tables s.data
  let _ ← InstrList.reserveAll limit item.records.length s.records.length
  return {
    records := s.records ++ item.records
    labels := item.labels s.records.length ++ s.labels
    anchors := item.anchors s.records.length ++ s.anchors
    data }

/-- The draft of a stream. -/
def ofStream (limit : Option Nat) (tables : Nat) (items : List StreamItem) (s : Draft) : Checked Draft :=
  items.foldlM (enter limit tables) s

end Draft

/-! ### Records of a list -/

/-- Records with their ids. -/
def numbered (records : List Instruction) : List (InstrId × Instruction) := records.mapIdx Prod.mk

/-- The ids of the records that stay linked: nops only if they are retained. -/
def keptIds (retainNops : Bool) (records : List Instruction) : List InstrId :=
  ((numbered records).filter fun (_, i) => retainNops || !i.isNop).map (·.1)

section Kept
variable {records : List Instruction} {retainNops : Bool} {i : Instruction} {id : InstrId}

theorem numbered_concat (records : List Instruction) (i : Instruction) :
    numbered (records ++ [i]) = numbered records ++ [(records.length, i)] := List.mapIdx_concat

theorem map_numbered (records : List Instruction) : (numbered records).map (·.2) = records := by
  refine List.ext_getElem? fun k => ?_
  rw [numbered, List.getElem?_map, List.getElem?_mapIdx]
  cases records[k]? <;> rfl

theorem keptIds_concat : keptIds retainNops (records ++ [i]) =
    keptIds retainNops records ++ if retainNops || !i.isNop then [records.length] else [] := by
  rw [keptIds, numbered_concat, List.filter_append, List.map_append, ← keptIds]
  cases h : retainNops || !i.isNop <;> simp [h]

theorem mem_numbered : (id, i) ∈ numbered records ↔ records[id]? = some i := by
  simp only [numbered, List.mem_mapIdx, Prod.mk.injEq, List.getElem?_eq_some_iff]
  constructor
  · rintro ⟨k, hk, rfl, rfl⟩
    exact ⟨hk, rfl⟩
  · rintro ⟨hk, rfl⟩
    exact ⟨id, hk, rfl, rfl⟩

theorem mem_keptIds : id ∈ keptIds retainNops records ↔ ∃ i, records[id]? = some i ∧ (retainNops || !i.isNop) = true := by
  simp only [keptIds, List.mem_map, List.mem_filter, Prod.exists, mem_numbered, exists_eq_right, exists_and_right]

end Kept

namespace InstrList

/-- A list, `l₀` when it was empty, whose arena holds `records` and that links those that stay linked. -/
structure Holds (l₀ : InstrList) (records : List Instruction) (l : InstrList) : Prop where
  contents : l.contents = records
  links : l.Links (keptIds l₀.retainNops records)
  limit : l.limit = l₀.limit
  retainNops : l.retainNops = l₀.retainNops

namespace Holds
variable {l₀ l : InstrList} {records : List Instruction} {i : Instruction}

theorem size (h : Holds l₀ records l) : l.arena.size = records.length := by rw [← l.contents_length, h.contents]

theorem push_follows (h : Holds l₀ records l) (hi : i.isNop = false) :
    Stateful.Follows (reserve l₀.limit records.length)
      (fun count id l' => (count = records.length + 1 ∧ id = records.length) ∧ Holds l₀ (records ++ [i]) l')
      (push i l) := by
  rw [← h.limit, ← h.size]
  refine (InstrList.push_follows h.links i).mono ?_
  rintro count id _ ⟨rfl, rfl, rfl⟩
  refine ⟨⟨rfl, rfl⟩, ?_, ?_, h.limit, h.retainNops⟩
  · rw [contents_pushed, h.contents]
  · rw [keptIds_concat, hi, Bool.not_false, Bool.or_true, if_pos rfl, ← h.size]
    exact h.links.pushed i

/-- Changing the last record changes neither links nor ids, if it stays a nop or none. -/
theorem changeLast {f : Instruction → Instruction} (h : Holds l₀ (records ++ [i]) l) (hf : (f i).isNop = i.isNop) :
    Holds l₀ (records ++ [f i]) (l.changed records.length f) where
  contents := by
    rw [contents_changed, h.contents]
    exact modify_length records [] i f
  links := by
    have hlinks := h.links
    rw [keptIds_concat] at hlinks
    rw [keptIds_concat, hf]
    exact hlinks.changed
  limit := h.limit
  retainNops := h.retainNops

/-- A nop leaves the list unless nops are retained. -/
theorem convertToNop_run (h : Holds l₀ (records ++ [i]) l) (hi : i.isNop = false) :
    ∃ l', convertToNop records.length l = .ok () l' ∧ Holds l₀ (records ++ [{ i with isNop := true }]) l' := by
  have hlinks : l.Links (keptIds l₀.retainNops records ++ [records.length]) := by
    have hkept := h.links
    rwa [keptIds_concat, hi, Bool.not_false, Bool.or_true, if_pos rfl] at hkept
  refine ⟨_, InstrList.convertToNop_run hlinks, ?_, ?_, limit_nopped.trans h.limit, retainNops_nopped.trans h.retainNops⟩
  · rw [contents_nopped, h.contents]
    exact modify_length records [] i _
  · have hnopped := hlinks.nopped
    rw [h.retainNops] at hnopped
    rw [keptIds_concat, Bool.not_true, Bool.or_false]
    exact hnopped

/-- The safepoint behind a call clobbers everything with it. -/
theorem markSafepoint_follows (h : Holds l₀ (records ++ [i]) l) (hmasks : i.useDefInvalid = false) :
    Stateful.Follows (reserve l₀.limit (records.length + 1)) (fun _ _ l' => Holds l₀ (records ++ i.callRecords) l')
      (markSafepoint records.length l) := by
  have hlt : records.length < l.arena.size := by
    rw [h.size]
    simp
  have hget : l.get records.length = .ok i := by
    rw [get_eq_ok, h.contents]
    simp
  have hmarked := h.changeLast (f := ({ · with defMask := Resource.all })) rfl
  have hmarker := hmarked.push_follows (i := .marker .safepointPc i.dexPc) rfl
  rw [List.length_append, List.append_assoc] at hmarker
  rw [markSafepoint, Stateful.get_bind_run, hget, Stateful.lift_ok_bind_run, hmasks, Bool.not_false, require_true,
    Stateful.lift_ok_bind_run, Stateful.bind_of_ok (modifyInstr_run hlt)]
  exact hmarker.mono fun _ _ _ hl => hl.2

end Holds

end InstrList

/-! ### Replaying follows drafting -/

namespace MethodUnit

/-- A unit, `u₀` when the replay began, that holds what a draft says. -/
structure Drafted (u₀ : MethodUnit) (s : Draft) (u : MethodUnit) : Prop where
  list : u₀.list.Holds s.records u.list
  same : u = { u₀ with list := u.list, data := s.data, blockLabels := s.labels }

section Drafted
variable {u₀ u : MethodUnit} {s : Draft} {i : Instruction}

/-- A step on the list of a unit that only adds records. -/
theorem onList_drafted {α β : Type} {r : Checked β} {step : ListM α} {P : β → α → Prop} {records : List Instruction}
    (h : Drafted u₀ s u) (hstep : Stateful.Follows r (fun b a l => P b a ∧ u₀.list.Holds records l) (step u.list)) :
    Stateful.Follows r (fun b a u' => P b a ∧ Drafted u₀ { s with records } u') (onList step u) := by
  refine (onList_follows hstep).mono ?_
  rintro b a u' ⟨⟨hp, hlist⟩, hu'⟩
  exact ⟨hp, hlist, by rw [hu', h.same]⟩

theorem push_follows (h : Drafted u₀ s u) (hi : i.isNop = false) :
    Stateful.Follows (InstrList.reserve u₀.list.limit s.records.length)
      (fun count id u' => (count = s.records.length + 1 ∧ id = s.records.length) ∧
        Drafted u₀ { s with records := s.records ++ [i] } u') (push i u) :=
  onList_drafted h (h.list.push_follows hi)

/-- A call takes two records, and there may be room for the first only. -/
theorem pushCall_follows (h : Drafted u₀ s u) (hi : i.isNop = false) (hmasks : i.useDefInvalid = false) :
    Stateful.Follows (InstrList.reserveAll u₀.list.limit 2 s.records.length)
      (fun _ _ u' => Drafted u₀ { s with records := s.records ++ i.callRecords } u') (pushCall i u) := by
  refine (push_follows h hi).bind ?_
  rintro _ _ u₁ ⟨⟨rfl, rfl⟩, h₁⟩
  refine Stateful.Follows.bind (Q := fun _ _ u' => Drafted u₀ { s with records := s.records ++ i.callRecords } u') ?_ ?_
  · have hmark := h₁.list.markSafepoint_follows hmasks
    exact (onList_drafted (P := fun _ _ => True) h₁ (hmark.mono fun _ _ _ hl => ⟨trivial, hl⟩)).mono fun _ _ _ hu => hu.2
  · exact fun count _ _ hu => ⟨count, rfl, hu⟩

theorem onPool_follows {α : Type} (view : DataSections → LiteralPool) (put : LiteralPool → DataSections → DataSections)
    (step : LiteralPool → Checked (α × LiteralPool)) :
    Stateful.Follows (step (view u.data)) (fun (a, pool) b u' => b = a ∧ u' = { u with data := put pool u.data })
      (onPool view put step u) := by
  rw [onPool, Stateful.get_bind_run]
  refine (Stateful.Follows.lift (step (view u.data)) u).bind_ok ?_
  rintro ⟨a, pool⟩ _ _ ⟨rfl, rfl⟩
  exact ⟨_, _, rfl, rfl, rfl⟩

theorem Drafted.withData (h : Drafted u₀ s u) (data : DataSections) : Drafted u₀ { s with data } { u with data } :=
  ⟨h.list, by rw [h.same]⟩

theorem Drafted.data_eq (h : Drafted u₀ s u) : u.data = s.data := by rw [h.same]

/-- A step on one section of the data. -/
theorem onPool_drafted {α : Type} (h : Drafted u₀ s u) (view : DataSections → LiteralPool)
    (put : LiteralPool → DataSections → DataSections) (step : LiteralPool → Checked (α × LiteralPool)) :
    Stateful.Follows ((step (view s.data)).map fun (_, pool) => put pool s.data)
      (fun data _ u' => Drafted u₀ { s with data } u') (onPool view put step u) := by
  rw [← h.data_eq]
  refine (onPool_follows view put step).map ?_
  rintro ⟨a, pool⟩ _ _ ⟨-, rfl⟩
  exact h.withData _

theorem onWords_drafted {α : Type} (h : Drafted u₀ s u) (step : LiteralPool → Checked (α × LiteralPool)) :
    Stateful.Follows ((step s.data.words).map fun (_, words) => { s.data with words })
      (fun data _ u' => Drafted u₀ { s with data } u') (onWords step u) :=
  onPool_drafted h _ _ step

theorem addBlockLabel_follows (h : Drafted u₀ s u) (dexPc : UInt32) :
    Stateful.Follows (InstrList.reserve u₀.list.limit s.records.length)
      (fun _ _ u' => Drafted u₀ { s with
        records := s.records ++ [.pseudo .normalBlockLabel dexPc], labels := (dexPc, s.records.length) :: s.labels } u')
      (addBlockLabel dexPc u) := by
  refine (push_follows h rfl).bind_ok ?_
  rintro _ _ u' ⟨⟨rfl, rfl⟩, hu'⟩
  exact ⟨_, _, rfl, hu'.list, by rw [hu'.same]⟩

end Drafted

end MethodUnit

section Emit
open MethodUnit
variable {u₀ u : MethodUnit} {s : Draft} {tables : Nat}

/-- Replaying one instruction follows drafting it. -/
theorem StreamItem.emit_follows (h : Drafted u₀ s u) (item : StreamItem) :
    Stateful.Follows (s.enter u₀.list.limit tables item)
      (fun s' anchors u' => anchors = s'.anchors ∧ Drafted u₀ s' u') (item.emit tables s.anchors u) := by
  cases item with
  | label dexPc =>
    simp only [Draft.enter, enterData, Checked.ok_bind, records, List.length_singleton, InstrList.reserveAll_one]
    exact (addBlockLabel_follows h dexPc).bind fun _ _ _ hu => ⟨_, rfl, rfl, hu⟩
  | op opcode dexPc operands nop =>
    simp only [Draft.enter, enterData, Checked.ok_bind, records, List.length_singleton, InstrList.reserveAll_one]
    refine (push_follows h rfl).bind ?_
    rintro _ _ u₁ ⟨⟨rfl, rfl⟩, hu₁⟩
    cases nop with
    | false => exact ⟨_, rfl, rfl, hu₁⟩
    | true =>
      obtain ⟨l, hrun, hl⟩ := hu₁.list.convertToNop_run rfl
      rw [if_pos rfl, Stateful.bind_of_ok (onList_run hrun)]
      exact ⟨_, rfl, rfl, hl, by rw [hu₁.same]; rfl⟩
  | call opcode dexPc operands =>
    simp only [Draft.enter, enterData, Checked.ok_bind]
    exact (pushCall_follows h rfl rfl).bind fun _ _ _ hu => ⟨_, rfl, rfl, hu⟩
  | invokeCode opcode dexPc target kind =>
    refine Stateful.Follows.bind (Q := fun data _ u' => Drafted u₀ { s with data } u') ?_ fun data _ _ hu => ?_
    · rw [codePointer, Stateful.get_bind_run, u.pointerSize_eq]
      exact onPool_drafted h _ _ _
    · exact (pushCall_follows hu rfl rfl).bind fun _ _ _ hu => ⟨_, rfl, rfl, hu⟩
  | invokeMethod opcode dexPc target kind =>
    refine Stateful.Follows.bind (Q := fun data _ u' => Drafted u₀ { s with data } u') ?_ fun data _ _ hu => ?_
    · rw [methodPointer, Stateful.get_bind_run, u.pointerSize_eq]
      exact onPool_drafted h _ _ _
    · exact (pushCall_follows hu rfl rfl).bind fun _ _ _ hu => ⟨_, rfl, rfl, hu⟩
  | loadWord opcode dexPc value =>
    have hfound : u.findWord value 0 = s.data.words.findNear value 0 := by rw [findWord, h.data_eq]
    simp only [Draft.enter, enterData, emit, Stateful.get_bind_run, hfound, records, List.length_singleton,
      InstrList.reserveAll_one]
    cases (s.data.words.findNear value 0).isNone with
    | true =>
      simp only [if_true]
      refine (onWords_drafted h (·.addWord value)).bind fun data _ _ hu => ?_
      exact (push_follows hu rfl).bind fun _ _ _ hu => ⟨_, rfl, rfl, hu.2⟩
    | false => exact (push_follows h rfl).bind fun _ _ _ hu => ⟨_, rfl, rfl, hu.2⟩
  | loadWide opcode dexPc low high =>
    simp only [Draft.enter, enterData, emit, records, List.length_singleton, InstrList.reserveAll_one]
    -- The search leaves a tag on a pair that it finds, so the pool changes even if nothing is added.
    have hfind : findWide low high u = .ok (u.data.words.findWide low high).1
        { u with data := { u.data with words := (u.data.words.findWide low high).2 } } := rfl
    rw [h.data_eq] at hfind
    rw [Stateful.bind_of_ok hfind]
    have hfound := h.withData { s.data with words := (s.data.words.findWide low high).2 }
    cases (s.data.words.findWide low high).1.isNone with
    | true =>
      simp only [if_true]
      refine (onWords_drafted hfound (·.addWide low high)).bind fun data _ _ hu => ?_
      exact (push_follows hu rfl).bind fun _ _ _ hu => ⟨_, rfl, rfl, hu.2⟩
    | false => exact (push_follows hfound rfl).bind fun _ _ _ hu => ⟨_, rfl, rfl, hu.2⟩
  | switch opcode dexPc table =>
    simp only [Draft.enter, enterData, emit]
    split
    · rfl
    · simp only [Checked.ok_bind, records, List.length_singleton, InstrList.reserveAll_one]
      refine (push_follows h rfl).bind ?_
      rintro _ _ u₁ ⟨⟨rfl, rfl⟩, hu₁⟩
      exact ⟨_, rfl, rfl, hu₁.list, hu₁.same⟩
  | exportPc dexPc =>
    simp only [Draft.enter, enterData, Checked.ok_bind, records, List.length_singleton, InstrList.reserveAll_one]
    exact (push_follows h rfl).bind fun _ _ _ hu => ⟨_, rfl, rfl, hu.2⟩
  | align4 =>
    simp only [Draft.enter, enterData, Checked.ok_bind, records, List.length_singleton, InstrList.reserveAll_one]
    exact (push_follows h rfl).bind fun _ _ _ hu => ⟨_, rfl, rfl, hu.2⟩

/-- Replaying a stream follows drafting it. -/
theorem Description.emitStream_follows (h : Drafted u₀ s u) (items : List StreamItem) :
    Stateful.Follows (s.ofStream u₀.list.limit tables items)
      (fun s' anchors u' => anchors = s'.anchors ∧ Drafted u₀ s' u') (emitStream tables items s.anchors u) := by
  induction items generalizing s u with
  | nil => exact ⟨s, rfl, rfl, h⟩
  | cons item items ih =>
    rw [Draft.ofStream, List.foldlM_cons]
    refine (item.emit_follows h).bind ?_
    rintro s' _ u' ⟨rfl, hu'⟩
    exact ih hu'

end Emit

/-! ### What a draft holds -/

namespace StreamItem

/-- The values of the word pool after an instruction. -/
def shareWords (values : List Int32) : StreamItem → List Int32
  | .loadWord _ _ value => LiteralPool.shareWord value values
  | .loadWide _ _ low high => LiteralPool.shareWide low high values
  | _ => values

/-- What an instruction invokes through a code pointer. -/
def codeTarget? : StreamItem → Option (UInt32 × InvokeKind)
  | .invokeCode _ _ target kind => some (target, kind)
  | _ => none

/-- What an instruction invokes through a method pointer. -/
def methodTarget? : StreamItem → Option (UInt32 × InvokeKind)
  | .invokeMethod _ _ target kind => some (target, kind)
  | _ => none

/-- The source PC of a label. -/
def labelPc? : StreamItem → Option UInt32
  | .label dexPc => some dexPc
  | _ => none

/-- The number of the table that an instruction dispatches through. -/
def table? : StreamItem → Option Nat
  | .switch _ _ table => some table
  | _ => none

theorem labels_eq (item : StreamItem) (base : InstrId) : item.labels base = (item.labelPc?.map (·, base)).toList := by
  cases item <;> rfl

theorem anchors_eq (item : StreamItem) (base : InstrId) : item.anchors base = (item.table?.map (·, base)).toList := by
  cases item <;> rfl

end StreamItem

/-- The literals that a stream needs, and nothing else. -/
structure DataSections.Entered (items : List StreamItem) (data : DataSections) : Prop where
  words : data.words.values = items.foldl StreamItem.shareWords []
  wordsEstimated : data.words.Estimated
  codePointers : data.codePointers.Points (items.filterMap StreamItem.codeTarget?)
  codesEstimated : data.codePointers.Estimated
  methodPointers : data.methodPointers.Points (items.filterMap StreamItem.methodTarget?)
  methodsEstimated : data.methodPointers.Estimated
  switchTables : data.switchTables = []
  fillArrays : data.fillArrays = []

theorem DataSections.entered_nil : DataSections.Entered [] {} where
  words := rfl
  wordsEstimated := rfl
  codePointers := LiteralPool.points_empty
  codesEstimated := rfl
  methodPointers := LiteralPool.points_empty
  methodsEstimated := rfl
  switchTables := rfl
  fillArrays := rfl

namespace DataSections.Entered
variable {items : List StreamItem} {item : StreamItem} {data data' : DataSections}

theorem concat {words codePointers methodPointers : LiteralPool} (h : data.Entered items)
    (hw : words.values = item.shareWords data.words.values) (hwe : words.Estimated)
    (hc : codePointers.Points (items.filterMap StreamItem.codeTarget? ++ item.codeTarget?.toList))
    (hce : codePointers.Estimated)
    (hm : methodPointers.Points (items.filterMap StreamItem.methodTarget? ++ item.methodTarget?.toList))
    (hme : methodPointers.Estimated) : Entered (items ++ [item]) { data with words, codePointers, methodPointers } where
  words := by rw [List.foldl_append, hw, h.words]; rfl
  wordsEstimated := hwe
  codePointers := by rwa [List.filterMap_append]
  codesEstimated := hce
  methodPointers := by rwa [List.filterMap_append]
  methodsEstimated := hme
  switchTables := h.switchTables
  fillArrays := h.fillArrays

theorem sameCodes (h : data.Entered items) (hc : item.codeTarget? = none) :
    data.codePointers.Points (items.filterMap StreamItem.codeTarget? ++ item.codeTarget?.toList) := by
  rw [hc, Option.toList_none, List.append_nil]
  exact h.codePointers

theorem sameMethods (h : data.Entered items) (hm : item.methodTarget? = none) :
    data.methodPointers.Points (items.filterMap StreamItem.methodTarget? ++ item.methodTarget?.toList) := by
  rw [hm, Option.toList_none, List.append_nil]
  exact h.methodPointers

/-- An instruction that needs no literal. -/
theorem idle (h : data.Entered items) (hw : item.shareWords data.words.values = data.words.values)
    (hc : item.codeTarget? = none) (hm : item.methodTarget? = none) : data.Entered (items ++ [item]) :=
  h.concat hw.symm h.wordsEstimated (h.sameCodes hc) h.codesEstimated (h.sameMethods hm) h.methodsEstimated

theorem loadWord {opcode : UInt16} {dexPc : UInt32} {value : Int32} {tables : Nat} (h : data.Entered items)
    (he : (StreamItem.loadWord opcode dexPc value).enterData tables data = .ok data') :
    data'.Entered (items ++ [.loadWord opcode dexPc value]) := by
  rw [StreamItem.enterData] at he
  split at he
  · rename_i hnew
    obtain ⟨⟨_, words⟩, hadd, rfl⟩ := Checked.map_eq_ok.mp he
    refine h.concat ?_ (h.wordsEstimated.add hadd) (h.sameCodes rfl) h.codesEstimated
      (h.sameMethods rfl) h.methodsEstimated
    rw [LiteralPool.values_addWord hadd, StreamItem.shareWords, LiteralPool.shareWord,
      if_neg ((data.words.findNear_zero value).mp hnew)]
  · rename_i hold
    cases he
    refine h.idle ?_ rfl rfl
    rw [data.words.findNear_zero, Classical.not_not] at hold
    rw [StreamItem.shareWords, LiteralPool.shareWord, if_pos hold]

theorem loadWide {opcode : UInt16} {dexPc : UInt32} {low high : Int32} {tables : Nat} (h : data.Entered items)
    (he : (StreamItem.loadWide opcode dexPc low high).enterData tables data = .ok data') :
    data'.Entered (items ++ [.loadWide opcode dexPc low high]) := by
  rw [StreamItem.enterData] at he
  dsimp only at he
  have hestimated := h.wordsEstimated.findWide low high
  split at he
  · rename_i hnew
    obtain ⟨⟨_, words⟩, hadd, rfl⟩ := Checked.map_eq_ok.mp he
    obtain ⟨hvalues, hwords⟩ := LiteralPool.addWide_eq_ok hestimated hadd
    refine h.concat ?_ hwords (h.sameCodes rfl) h.codesEstimated (h.sameMethods rfl)
      h.methodsEstimated
    rw [hvalues, LiteralPool.values_findWide, StreamItem.shareWords, LiteralPool.shareWide,
      if_neg ((data.words.findWide_isNone low high).mp hnew)]
  · rename_i hold
    cases he
    refine h.concat ?_ hestimated (h.sameCodes rfl) h.codesEstimated (h.sameMethods rfl)
      h.methodsEstimated
    rw [data.words.findWide_isNone, Classical.not_not] at hold
    rw [LiteralPool.values_findWide, StreamItem.shareWords, LiteralPool.shareWide, if_pos hold]

theorem enterData {tables : Nat} (h : data.Entered items) (he : item.enterData tables data = .ok data') :
    data'.Entered (items ++ [item]) := by
  cases item with
  | invokeCode opcode dexPc target kind =>
    obtain ⟨⟨_, codePointers⟩, hshare, rfl⟩ := Checked.map_eq_ok.mp he
    exact h.concat rfl h.wordsEstimated (h.codePointers.sharePointer hshare) (h.codesEstimated.sharePointer hshare)
      (h.sameMethods rfl) h.methodsEstimated
  | invokeMethod opcode dexPc target kind =>
    obtain ⟨⟨_, methodPointers⟩, hshare, rfl⟩ := Checked.map_eq_ok.mp he
    exact h.concat rfl h.wordsEstimated (h.sameCodes rfl) h.codesEstimated
      (h.methodPointers.sharePointer hshare) (h.methodsEstimated.sharePointer hshare)
  | loadWord => exact h.loadWord he
  | loadWide => exact h.loadWide he
  | switch =>
    rw [StreamItem.enterData] at he
    split at he
    · cases he
    · cases he
      exact h.idle rfl rfl rfl
  | label | op | call | exportPc | align4 =>
    cases he
    exact h.idle rfl rfl rfl

end DataSections.Entered

section LastOccurrence
variable {κ : Type} {key? : StreamItem → Option κ} {k : κ} {items pre : List StreamItem} {item : StreamItem}
  {tags : List (κ × InstrId)}

/-- What stands in a stream before the last instruction with a key. -/
def BeforeLast (key? : StreamItem → Option κ) (k : κ) (items pre : List StreamItem) : Prop :=
  ∃ item post, items = pre ++ item :: post ∧ key? item = some k ∧ ∀ later ∈ post, key? later ≠ some k

theorem beforeLast_concat (h : key? item = some k) : BeforeLast key? k (items ++ [item]) items :=
  ⟨item, [], rfl, h, fun _ hlater => absurd hlater List.not_mem_nil⟩

theorem BeforeLast.concat (h : BeforeLast key? k items pre) (hitem : key? item ≠ some k) :
    BeforeLast key? k (items ++ [item]) pre := by
  obtain ⟨last, post, rfl, hlast, hpost⟩ := h
  refine ⟨last, post ++ [item], by rw [List.append_assoc, List.cons_append], hlast, fun later hlater => ?_⟩
  rcases List.mem_append.mp hlater with hlater | hlater
  · exact hpost later hlater
  · rwa [List.mem_singleton.mp hlater]

/-- Keys that name the records of a stream, the latest first: a key names the first record of the last instruction that
    has it. -/
def Tagged [BEq κ] (key? : StreamItem → Option κ) (items : List StreamItem) (tags : List (κ × InstrId)) : Prop :=
  ∀ k id, tags.lookup k = some id →
    ∃ pre, BeforeLast key? k items pre ∧ id = (pre.flatMap StreamItem.records).length

theorem Tagged.concat [BEq κ] [LawfulBEq κ] (h : Tagged key? items tags) (item : StreamItem) :
    Tagged key? (items ++ [item])
      (((key? item).map (·, (items.flatMap StreamItem.records).length)).toList ++ tags) := by
  intro k id hid
  by_cases hitem : key? item = some k
  · rw [hitem, Option.map_some, Option.toList_some, List.singleton_append, List.lookup_cons_self] at hid
    cases hid
    exact ⟨items, beforeLast_concat hitem, rfl⟩
  · have hold : tags.lookup k = some id := by
      cases hkey : key? item with
      | none => simpa [hkey] using hid
      | some k' =>
        have hne : (k == k') = false := beq_eq_false_iff_ne.mpr fun h => hitem (by rw [hkey, h])
        rwa [hkey, Option.map_some, Option.toList_some, List.singleton_append, List.lookup_cons, hne] at hid
    obtain ⟨pre, hpre, rfl⟩ := h k id hold
    exact ⟨pre, hpre.concat hitem, rfl⟩

end LastOccurrence

namespace Draft

/-- The draft of a stream: its records one behind the other, a label for each labelled PC and an anchor for each switch
    that is dispatched through, and its literals. -/
structure Of (items : List StreamItem) (s : Draft) : Prop where
  records : s.records = items.flatMap StreamItem.records
  labels : ∀ pc id, (pc, id) ∈ s.labels → s.records[id]? = some (.pseudo .normalBlockLabel pc)
  labelled : ∀ pc, (∃ id, (pc, id) ∈ s.labels) ↔ StreamItem.label pc ∈ items
  anchors : ∀ number id, (number, id) ∈ s.anchors →
    ∃ i, s.records[id]? = some i ∧ i.isLiveTarget = true ∧ i.fixup ≠ .none
  anchored : ∀ number, (∃ id, (number, id) ∈ s.anchors) ↔ ∃ opcode pc, StreamItem.switch opcode pc number ∈ items
  lastLabels : Tagged StreamItem.labelPc? items s.labels
  lastAnchors : Tagged StreamItem.table? items s.anchors
  data : s.data.Entered items

section Of
variable {limit : Option Nat} {tables : Nat} {items : List StreamItem} {item : StreamItem} {s s' : Draft}

theorem of_nil : Of [] {} where
  records := rfl
  labels := nofun
  labelled := by simp
  anchors := nofun
  anchored := by simp
  lastLabels := nofun
  lastAnchors := nofun
  data := DataSections.entered_nil

theorem getElem?_records {records : List Instruction} {id : InstrId} {i : Instruction} (more : List Instruction)
    (h : records[id]? = some i) : (records ++ more)[id]? = some i := by
  rw [List.getElem?_append_left (List.getElem?_eq_some_iff.mp h).1, h]

theorem labels_records {pc : UInt32} {records : List Instruction} {id : InstrId}
    (h : (pc, id) ∈ item.labels records.length) : (records ++ item.records)[id]? = some (.pseudo .normalBlockLabel pc) := by
  cases item with
  | label dexPc =>
    cases List.mem_singleton.mp h
    simp [StreamItem.records]
  | op | call | invokeCode | invokeMethod | loadWord | loadWide | switch | exportPc | align4 => cases h

theorem anchors_records {records : List Instruction} {number : Nat} {id : InstrId}
    (h : (number, id) ∈ item.anchors records.length) :
    ∃ i, (records ++ item.records)[id]? = some i ∧ i.isLiveTarget = true ∧ i.fixup ≠ .none := by
  cases item with
  | switch opcode dexPc table =>
    cases List.mem_singleton.mp h
    refine ⟨(Instruction.target opcode dexPc [.ofNat number]).withFixup .switchTable, ?_, rfl, nofun⟩
    simp [StreamItem.records]
  | label | op | call | invokeCode | invokeMethod | loadWord | loadWide | exportPc | align4 => cases h

theorem mem_labels {base : InstrId} {pc : UInt32} : (∃ id, (pc, id) ∈ item.labels base) ↔ item = .label pc := by
  cases item <;> simp [StreamItem.labels, eq_comm]

theorem mem_anchors {base : InstrId} {number : Nat} :
    (∃ id, (number, id) ∈ item.anchors base) ↔ ∃ opcode pc, item = .switch opcode pc number := by
  cases item <;> simp [StreamItem.anchors, eq_comm]

theorem Of.enter (h : Of items s) (he : s.enter limit tables item = .ok s') : Of (items ++ [item]) s' := by
  obtain ⟨data, hdata, he⟩ := Checked.bind_eq_ok.mp he
  obtain ⟨_, -, he⟩ := Checked.bind_eq_ok.mp he
  cases he
  refine ⟨?_, fun pc id hmem => ?_, fun pc => ?_, fun number id hmem => ?_, fun number => ?_, ?_, ?_,
    h.data.enterData hdata⟩
  · rw [List.flatMap_append, h.records, List.flatMap_singleton]
  · -- Labels in front are of this instruction, and the records of those behind stay where they are.
    rcases List.mem_append.mp hmem with hnew | hold
    · exact labels_records hnew
    · exact getElem?_records _ (h.labels pc id hold)
  · simp only [List.mem_append, exists_or, h.labelled, mem_labels, List.mem_singleton, eq_comm (b := item)]
    exact or_comm
  · rcases List.mem_append.mp hmem with hnew | hold
    · exact anchors_records hnew
    · obtain ⟨i, hi, hlive⟩ := h.anchors number id hold
      exact ⟨i, getElem?_records _ hi, hlive⟩
  · simp only [List.mem_append, exists_or, h.anchored, mem_anchors, List.mem_singleton, eq_comm (b := item)]
    exact or_comm
  · rw [item.labels_eq, h.records]
    exact h.lastLabels.concat item
  · rw [item.anchors_eq, h.records]
    exact h.lastAnchors.concat item

theorem of_ofStream {more : List StreamItem} (h : Of items s) (hs : s.ofStream limit tables more = .ok s') :
    Of (items ++ more) s' := by
  induction more generalizing items s with
  | nil =>
    cases hs
    rwa [List.append_nil]
  | cons item more ih =>
    rw [ofStream, List.foldlM_cons] at hs
    obtain ⟨s₁, hone, hrest⟩ := Checked.bind_eq_ok.mp hs
    rw [List.append_cons]
    exact ih (h.enter hone) hrest

end Of

end Draft

end MethodAssembler
