import MethodAssembler.Proofs.Draft

/-! # Filling a unit

A description fills a fresh unit with the draft of its stream, its switch tables and fill-arrays, and its handlers, frame
and register tables. The payload of a switch has a key and a target for each of the cases it counts, so listing it never
fails. -/

namespace MethodAssembler

/-! ### Payloads of switches -/

namespace SwitchPayload

theorem length_unitsOfWord (value : Int32) : (unitsOfWord value).length = 2 := rfl

theorem size_packed_units (firstKey : Int32) (targets : List Int32) :
    (packed firstKey targets).units.size = 4 + 2 * targets.length := by
  simp only [packed, List.size_toArray, List.cons_append, List.length_cons, List.length_append, List.length_flatMap,
    length_unitsOfWord, List.map_const', List.sum_replicate_nat]
  omega

theorem size_sparse_units (cases : List (Int32 × Int32)) : (sparse cases).units.size = 2 + 4 * cases.length := by
  simp only [sparse, List.size_toArray, List.cons_append, List.length_cons, List.length_append, List.length_flatMap,
    length_unitsOfWord, List.map_const', List.sum_replicate_nat]
  omega

theorem size_packed (firstKey : Int32) (targets : List Int32) :
    (packed firstKey targets).size = targets.length % 2 ^ 16 := by
  simp [size, packed]

theorem size_sparse (cases : List (Int32 × Int32)) : (sparse cases).size = cases.length % 2 ^ 16 := by
  simp [size, sparse]

theorem size_packed_le (firstKey : Int32) (targets : List Int32) : (packed firstKey targets).size ≤ targets.length := by
  rw [size_packed]
  exact Nat.mod_le _ _

theorem size_sparse_le (cases : List (Int32 × Int32)) : (sparse cases).size ≤ cases.length := by
  rw [size_sparse]
  exact Nat.mod_le _ _

/-- There is a target for each of the cases that are counted. -/
def Readable (p : SwitchPayload) : Prop := ∀ i < p.size, ∃ target, p.relativeTarget i = .ok target

theorem readable_packed (firstKey : Int32) (targets : List Int32) : (packed firstKey targets).Readable := by
  intro i hi
  have hle := size_packed_le firstKey targets
  exact wordAt_of_lt (by rw [size_packed_units]; omega)

theorem readable_sparse (cases : List (Int32 × Int32)) : (sparse cases).Readable := by
  intro i hi
  have hle := size_sparse_le cases
  exact wordAt_of_lt (by rw [size_sparse_units]; omega)

theorem Readable.listing {p : SwitchPayload} (h : p.Readable) (hfirst : p.kind = .packed → ∃ key, p.key 0 = .ok key) :
    ∃ lines, p.listing = .ok lines := by
  have hline : ∀ i ∈ List.range p.size, ∃ line, (do
      return "  Key[" ++ toString (← p.key i).toInt ++ "] -> 0x" ++ Text.hexInt32 (← p.relativeTarget i)) =
        (Except.ok line : Checked String) := by
    intro i hi
    obtain ⟨target, htarget⟩ := h i (List.mem_range.mp hi)
    exact Checked.exists_bind (key_of_relativeTarget htarget) fun _ =>
      Checked.exists_bind ⟨target, htarget⟩ fun _ => ⟨_, rfl⟩
  rw [SwitchPayload.listing]
  cases hk : p.kind with
  | packed =>
    refine Checked.exists_bind (hfirst hk) fun _ => Checked.exists_bind ⟨_, rfl⟩ fun _ => ?_
    exact Checked.exists_bind (Checked.exists_mapM hline) fun _ => ⟨_, rfl⟩
  | sparse =>
    refine Checked.exists_bind ⟨_, rfl⟩ fun _ => ?_
    exact Checked.exists_bind (Checked.exists_mapM hline) fun _ => ⟨_, rfl⟩

end SwitchPayload

namespace SwitchDescription

theorem readable_payload (s : SwitchDescription) : s.payload.Readable := by
  cases s with
  | packed dexPc firstKey targets => exact SwitchPayload.readable_packed firstKey targets
  | sparse dexPc cases => exact SwitchPayload.readable_sparse cases

theorem listing_payload (s : SwitchDescription) : ∃ lines, s.payload.listing = .ok lines := by
  refine s.readable_payload.listing fun hk => ?_
  cases s with
  | packed dexPc firstKey targets =>
    refine Checked.exists_bind (wordAt_of_lt ?_) fun _ => ⟨_, rfl⟩
    have hsize := SwitchPayload.size_packed_units firstKey targets
    simp only [payload]
    omega
  | sparse dexPc cases => cases hk

end SwitchDescription

/-! ### Steps that fill a unit -/

namespace Description

/-- The tables of switches, the first of which has this number, each with the last instruction that names it. -/
def switchTables (anchors : Anchors) : (number : Nat) → List SwitchDescription → List SwitchTable
  | _, [] => []
  | number, s :: rest =>
    { payload := s.payload, dexPc := s.dexPc, anchor := anchors.lookup number } :: switchTables anchors (number + 1) rest

theorem getElem?_switchTables {anchors : Anchors} {number n : Nat} {switches : List SwitchDescription} :
    (switchTables anchors number switches)[n]? = switches[n]?.map fun s =>
      { payload := s.payload, dexPc := s.dexPc, anchor := anchors.lookup (number + n) } := by
  induction switches generalizing number n with
  | nil => rfl
  | cons s switches ih =>
    cases n with
    | zero => rfl
    | succ n =>
      rw [switchTables, List.getElem?_cons_succ, List.getElem?_cons_succ, ih, Nat.add_assoc, Nat.add_comm 1]

variable {u : MethodUnit}

theorem addSwitches_run (anchors : Anchors) (number : Nat) (switches : List SwitchDescription) :
    ∃ events, addSwitches anchors number switches u = .ok () { u with
      data := { u.data with switchTables := u.data.switchTables ++ switchTables anchors number switches }, events } := by
  induction switches generalizing number u with
  | nil => exact ⟨u.events, by rw [switchTables, List.append_nil]; rfl⟩
  | cons s switches ih =>
    obtain ⟨lines, hlines⟩ := s.listing_payload
    have hone : ∃ number' events, MethodUnit.addSwitchTable s.payload s.dexPc (anchors.lookup number) u =
        .ok number' { u with
          data := { u.data with switchTables := u.data.switchTables ++
            [{ payload := s.payload, dexPc := s.dexPc, anchor := anchors.lookup number }] }, events } := by
      cases hv : u.config.verbose with
      | true => exact ⟨_, u.events ++ lines, by simp [MethodUnit.addSwitchTable, hv, hlines, MethodUnit.report]; rfl⟩
      | false => exact ⟨_, u.events, by simp [MethodUnit.addSwitchTable, hv]; rfl⟩
    obtain ⟨_, events, hone⟩ := hone
    rw [addSwitches, Stateful.bind_of_ok hone]
    obtain ⟨events', hrest⟩ := @ih _ (number + 1)
    exact ⟨events', hrest.trans (by rw [switchTables, List.append_assoc]; rfl)⟩

theorem addFillArrays_follows (fills : List FillDescription) :
    Stateful.Follows (fills.mapM fun f => FillArray.ofElements f.elementWidth f.data f.dexPc)
      (fun fillArrays _ u' => u' = { u with data := { u.data with fillArrays := u.data.fillArrays ++ fillArrays } })
      (addFillArrays fills u) := by
  induction fills generalizing u with
  | nil => exact ⟨[], rfl, by simp⟩
  | cons f fills ih =>
    rw [List.mapM_cons]
    refine (Stateful.Follows.lift (FillArray.ofElements f.elementWidth f.data f.dexPc) u).bind ?_
    rintro _ first t ⟨rfl, rfl⟩
    simp only [Checked.pure_eq, Checked.bind_ok_eq_map]
    refine (@ih { t with data := { t.data with fillArrays := t.data.fillArrays ++ [first] } }).map ?_
    rintro rest _ _ rfl
    simp

theorem addCatches_run (catches : List UInt32) : catches.forM MethodUnit.addCatch u =
    .ok () { u with catches := catches.foldl (fun sorted pc => SortedWords.insertNew pc sorted) u.catches } := by
  induction catches generalizing u with
  | nil => rfl
  | cons pc catches ih => exact @ih { u with catches := SortedWords.insertNew pc u.catches }

theorem setFrame_follows (frame : Frame) :
    Stateful.Follows frame.size (fun frameSize _ u' => u' = { u with frame, frameSize }) (MethodUnit.setFrame frame u) := by
  refine (Stateful.Follows.lift frame.size u).bind_ok ?_
  rintro size _ _ ⟨rfl, rfl⟩
  exact ⟨_, _, rfl, rfl⟩

theorem addCoreVmaps_run (entries : List UInt32) : entries.forM MethodUnit.addCoreVmap u =
    .ok () { u with coreVmap := u.coreVmap ++ entries } := by
  induction entries generalizing u with
  | nil => rw [List.append_nil]; rfl
  | cons e entries ih => exact (@ih { u with coreVmap := u.coreVmap ++ [e] }).trans (by rw [List.append_assoc]; rfl)

theorem addFpVmaps_run (entries : List UInt32) : entries.forM MethodUnit.addFpVmap u =
    .ok () { u with fpVmap := u.fpVmap ++ entries } := by
  induction entries generalizing u with
  | nil => rw [List.append_nil]; rfl
  | cons e entries ih => exact (@ih { u with fpVmap := u.fpVmap ++ [e] }).trans (by rw [List.append_assoc]; rfl)

end Description

/-! ### The filled unit -/

/-- What a description comes to before it is assembled: the draft of its stream, its fill-arrays and the size of its
    frame. -/
structure Filling where
  draft : Draft
  fillArrays : List FillArray
  frameSize : UInt32

namespace Description

/-- The entries of handlers in ascending order. -/
def sortedCatches (d : Description) : List UInt32 :=
  d.catches.foldl (fun sorted pc => SortedWords.insertNew pc sorted) []

def filling (limit : Option Nat) (d : Description) : Checked Filling := do
  let draft ← Draft.ofStream limit d.switches.length d.instructions {}
  let fillArrays ← d.fillArrays.mapM fun f => FillArray.ofElements f.elementWidth f.data f.dexPc
  let frameSize ← d.frame.size
  return { draft, fillArrays, frameSize }

theorem draft_of_filling {d : Description} {limit : Option Nat} {f : Filling} (h : d.filling limit = .ok f) :
    f.draft.Of d.instructions := by
  simp only [filling, Checked.bind_eq_ok, Checked.pure_eq, Except.ok.injEq] at h
  obtain ⟨draft, hdraft, fillArrays, -, frameSize, -, rfl⟩ := h
  exact Draft.of_ofStream Draft.of_nil hdraft

/-- The data of a filled unit. -/
def dataSections (d : Description) (f : Filling) : DataSections :=
  { f.draft.data with switchTables := switchTables f.draft.anchors 0 d.switches, fillArrays := f.fillArrays }

/-- A unit that holds all that a description says, its list being the records of the draft. -/
structure Filled (d : Description) (config : Config) (f : Filling) (u : MethodUnit) : Prop where
  draft : f.draft.Of d.instructions
  list : (InstrList.empty config.retainNops config.maxInstructions).Holds f.draft.records u.list
  same : u = { MethodUnit.new config d.context with
    list := u.list, data := d.dataSections f, blockLabels := f.draft.labels, catches := d.sortedCatches
    coreVmap := d.coreVmap, fpVmap := d.fpVmap, frame := d.frame, frameSize := f.frameSize, events := u.events }

theorem drafted_new (config : Config) (context : MethodContext) :
    MethodUnit.Drafted (.new config context) {} (.new config context) where
  list := ⟨rfl, InstrList.links_empty _ _, rfl, rfl⟩
  same := rfl

/-- Filling a fresh unit follows what the description comes to. -/
theorem fill_follows (d : Description) (config : Config) :
    Stateful.Follows (d.filling config.maxInstructions) (fun f _ u => Filled d config f u)
      (d.fill (.new config d.context)) := by
  have hstream := (@emitStream_follows _ _ _ d.switches.length (drafted_new config d.context) d.instructions).known
  refine hstream.bind ?_
  rintro draft _ u₁ ⟨hdraft, rfl, h₁⟩
  have hof : draft.Of d.instructions := Draft.of_ofStream Draft.of_nil hdraft
  obtain ⟨events, hswitches⟩ := addSwitches_run (u := u₁) draft.anchors 0 d.switches
  rw [Stateful.bind_of_ok hswitches]
  refine (addFillArrays_follows d.fillArrays).bind ?_
  rintro fillArrays _ _ rfl
  rw [Stateful.bind_of_ok (addCatches_run d.catches)]
  refine (setFrame_follows d.frame).bind ?_
  rintro frameSize _ _ rfl
  rw [Stateful.bind_of_ok (addCoreVmaps_run d.coreVmap), addFpVmaps_run]
  refine ⟨{ draft, fillArrays, frameSize }, rfl, hof, h₁.list, ?_⟩
  rw [h₁.same]
  simp [dataSections, hof.data.switchTables, hof.data.fillArrays, MethodUnit.new, sortedCatches]

end Description

end MethodAssembler
