import MethodAssembler.Proofs.CodeImage
import MethodAssembler.Proofs.Filling

/-! # Agreement with a draft

Diagnostics leave nops in the list of a unit and put case labels behind its labels. What remains without them are the
records of the draft in order (`isPlain`). Such a list is laid out as the records are: every record has the same
offset, a case label that of its label, so that switch tables, image and markers come out the same. -/

namespace MethodAssembler

/-- An entry that neither an optimisation left over nor diagnostics put in. -/
def isPlain (e : InstrId × Instruction) : Bool := !e.2.isNop && decide (e.2.opcode ≠ .pseudo .caseLabel)

section Entries
variable {l₀ l : InstrList} {ids : List InstrId} {cases : InstrId → List InstrId} {records : List Instruction}

theorem InstrList.Labelled.contents_of_lt (h : InstrList.Labelled l₀ ids cases l) {id : InstrId}
    (hid : id < l₀.arena.size) : l.contents[id]? = l₀.contents[id]? := by
  obtain ⟨added, hadded, -⟩ := h.contents
  rw [hadded, List.getElem?_append_left (by rwa [l₀.contents_length])]

theorem InstrList.Labelled.caseLabel (h : InstrList.Labelled l₀ ids cases l) {x c : InstrId} {i : Instruction}
    (hc : c ∈ cases x) (hi : l.contents[c]? = some i) : i.opcode = .pseudo .caseLabel := by
  obtain ⟨added, hadded, hlabels⟩ := h.contents
  rw [hadded, List.getElem?_append_right (by rw [l₀.contents_length]; exact (h.fresh x c hc).2)] at hi
  exact hlabels i (List.mem_of_getElem? hi)

/-- Without case labels a list links what it linked before. -/
theorem InstrList.Labelled.filter_named (h : InstrList.Labelled l₀ ids cases l) (hl : l₀.Links ids) :
    (FixedWidth.named l (interleave ids cases)).filter isPlain = (FixedWidth.named l₀ ids).filter isPlain := by
  -- For any part of the list, as the induction takes ids off its front.
  have hsub : ∀ some : List InstrId, (∀ x ∈ some, x ∈ ids) →
      (FixedWidth.named l (interleave some cases)).filter isPlain = (FixedWidth.named l₀ some).filter isPlain := by
    intro some hsome
    induction some with
    | nil => rfl
    | cons x some ih =>
      have hx : FixedWidth.named l [x] = FixedWidth.named l₀ [x] :=
        FixedWidth.named_congr fun y hy => by
          cases List.mem_singleton.mp hy
          exact h.contents_of_lt (hl.lt_size (hsome x List.mem_cons_self))
      have hcases : (FixedWidth.named l (cases x)).filter isPlain = [] := by
        refine List.filter_eq_nil_iff.mpr fun ⟨c, i⟩ hci => ?_
        obtain ⟨hc, hi⟩ := FixedWidth.mem_named.mp hci
        simp [isPlain, h.caseLabel hc hi]
      have htail := ih fun y hy => hsome y (List.mem_cons_of_mem _ hy)
      have hsplit : interleave (x :: some) cases = [x] ++ (cases x ++ interleave some cases) := rfl
      rw [hsplit, FixedWidth.named_append, FixedWidth.named_append, List.filter_append, List.filter_append, hcases,
        List.nil_append, htail, hx, ← List.filter_append, ← FixedWidth.named_append, List.singleton_append]
  exact hsub ids fun _ hx => hx

theorem named_keptIds (h : l.contents = records) (retainNops : Bool) :
    FixedWidth.named l (keptIds retainNops records) =
      (numbered records).filter fun (_, i) => retainNops || !i.isNop := by
  have hsub : ∀ es : List (InstrId × Instruction), (∀ e ∈ es, records[e.1]? = some e.2) →
      FixedWidth.named l (es.map (·.1)) = es := by
    intro es hes
    induction es with
    | nil => rfl
    | cons e es ih =>
      have he : l.contents[e.1]? = some e.2 := by rw [h]; exact hes e List.mem_cons_self
      rw [List.map_cons, FixedWidth.named_cons he, ih fun e he => hes e (List.mem_cons_of_mem _ he)]
  exact hsub _ fun e he => mem_numbered.mp (List.mem_filter.mp he).1

theorem filter_keptIds (h : l.contents = records) (retainNops : Bool) :
    (FixedWidth.named l (keptIds retainNops records)).filter isPlain = (numbered records).filter isPlain := by
  rw [named_keptIds h, List.filter_filter]
  refine List.filter_congr fun e _ => ?_
  cases hn : e.2.isNop <;> simp [isPlain, hn]

end Entries

/-! ### Layouts -/

section Layout
variable {width reached stop : UInt32} {entries entries' : List (InstrId × Instruction)}

theorem layOut_agree (h : entries.filter isPlain = entries'.filter isPlain)
    (hidle : ∀ e ∈ entries, isPlain e = false → FixedWidth.isIdle e.2 = true)
    (hidle' : ∀ e ∈ entries', isPlain e = false → FixedWidth.isIdle e.2 = true) :
    Checked.Agree (fun (stamped, stop) (stamped', stop') => stamped.filter isPlain = stamped'.filter isPlain ∧ stop = stop')
      (FixedWidth.layOut width entries reached) (FixedWidth.layOut width entries' reached) := by
  have hmap := congrArg (FixedWidth.layOut width · reached) h
  simp only [FixedWidth.layOut_filter isPlain hidle fun _ _ _ => rfl,
    FixedWidth.layOut_filter isPlain hidle' fun _ _ _ => rfl] at hmap
  refine (Checked.Agree.of_map hmap).mono ?_
  rintro ⟨stamped, stop⟩ ⟨stamped', stop'⟩ heq
  exact Prod.mk.inj heq

theorem arrange_agree {α : Type} {next : α → UInt32 → Checked UInt32} {put : α → UInt32 → α} {S : α → α → Prop}
    (hnext : ∀ x y o, S x y → next x o = next y o) (hput : ∀ x y o, S x y → S (put x o) (put y o)) {xs ys : List α}
    (h : List.Forall₂ S xs ys) (offset : UInt32) :
    Checked.Agree (fun (xs, stop) (ys, stop') => List.Forall₂ S xs ys ∧ stop = stop')
      (arrange next put xs offset) (arrange next put ys offset) := by
  induction h generalizing offset with
  | nil => exact .ok ⟨.nil, rfl⟩
  | @cons x y xs ys hxy _ ih =>
    rw [arrange, arrange, hnext x y offset hxy]
    refine (Checked.Agree.refl (next y offset)).bind ?_
    rintro reached _ rfl
    refine (ih reached).bind ?_
    rintro ⟨xs, stop⟩ ⟨ys, stop'⟩ ⟨hrest, rfl⟩
    exact .ok ⟨.cons (hput x y offset hxy) hrest, rfl⟩

/-- Data that differ in the targets of switch tables only are laid out the same. -/
theorem DataSections.assign_agree {d : DataSections} {tables : List SwitchTable} {cases : InstrId → List InstrId}
    (h : List.Forall₂ (Redirected cases) d.switchTables tables) (codeSize : UInt32) :
    Checked.Agree
      (fun (data, layout) (plain, layout') => layout = layout' ∧ data = { plain with switchTables := data.switchTables } ∧
        List.Forall₂ (Redirected cases) plain.switchTables data.switchTables)
      (assign { d with switchTables := tables } codeSize 4) (d.assign codeSize 4) := by
  refine (Checked.Agree.refl (alignUp codeSize 4)).bind ?_
  rintro dataOffset _ rfl
  refine (Checked.Agree.refl (d.words.assignWords dataOffset)).bind ?_
  rintro ⟨words, o₁⟩ _ rfl
  refine (Checked.Agree.refl (d.codePointers.assignPointers o₁ 4)).bind ?_
  rintro ⟨codePointers, o₂⟩ _ rfl
  refine (Checked.Agree.refl (d.methodPointers.assignPointers o₂ 4)).bind ?_
  rintro ⟨methodPointers, o₃⟩ _ rfl
  -- Only the tables differ, and neither their sizes nor their new offsets depend on the targets.
  have htables : Checked.Agree
      (fun r plain => List.Forall₂ (fun t plain => Redirected cases plain t) r.1 plain.1 ∧ r.2 = plain.2)
      (assignSwitchTables tables o₃) (assignSwitchTables d.switchTables o₃) := by
    rw [assignSwitchTables_eq_arrange, assignSwitchTables_eq_arrange]
    refine arrange_agree ?_ ?_ (List.Forall₂.flip h) o₃
    · intro t plain o ht
      rw [ht.same]
    · intro t plain o ht
      exact ⟨by rw [ht.same], ht.targets⟩
  refine htables.bind ?_
  rintro ⟨tables, o₄⟩ ⟨plain, _⟩ ⟨htables, rfl⟩
  refine (Checked.Agree.refl (assignFillArrays d.fillArrays o₄)).bind ?_
  rintro ⟨fillArrays, totalSize⟩ _ rfl
  exact .ok ⟨rfl, rfl, List.Forall₂.flip htables⟩

theorem laidOut_agree {d data : DataSections} {cases : InstrId → List InstrId}
    (h : entries.filter isPlain = entries'.filter isPlain)
    (hidle : ∀ e ∈ entries, isPlain e = false → FixedWidth.isIdle e.2 = true)
    (hidle' : ∀ e ∈ entries', isPlain e = false → FixedWidth.isIdle e.2 = true)
    (hdata : data = { d with switchTables := data.switchTables })
    (htables : List.Forall₂ (Redirected cases) d.switchTables data.switchTables) :
    Checked.Agree
      (fun (stamped, data, layout) (stamped', plain, layout') => stamped.filter isPlain = stamped'.filter isPlain ∧
        layout = layout' ∧ data = { plain with switchTables := data.switchTables } ∧
        List.Forall₂ (Redirected cases) plain.switchTables data.switchTables)
      (laidOut width entries data) (laidOut width entries' d) := by
  refine (layOut_agree h hidle hidle').bind ?_
  rintro ⟨stamped, codeSize⟩ ⟨stamped', _⟩ ⟨hstamped, rfl⟩
  have hassign := DataSections.assign_agree htables codeSize
  rw [← hdata] at hassign
  refine hassign.bind ?_
  rintro ⟨data, layout⟩ ⟨plain, layout'⟩ hdata
  exact .ok ⟨hstamped, hdata⟩

end Layout

/-! ### Offsets -/

/-- A list that holds records and links none of them. -/
def InstrList.ofRecords (records : List Instruction) : InstrList :=
  { arena := (records.map fun i => { instr := i }).toArray }

theorem InstrList.contents_ofRecords (records : List Instruction) : (InstrList.ofRecords records).contents = records := by
  simp [InstrList.ofRecords, InstrList.contents, Function.comp_def]

/-- A table that stands in `l` as another one in `r`: its anchor is the same, and its cases lead to the same offsets. -/
structure SwitchTable.Matches (r l : InstrList) (plain t : SwitchTable) : Prop where
  same : t = { plain with targets := t.targets }
  targets : t.targets.toList.map l.offsetOf = plain.targets.toList.map r.offsetOf
  anchor : ∀ id, plain.anchor = some id → l.contents[id]? = r.contents[id]?

namespace SwitchTable.Matches
variable {r l : InstrList} {plain t : SwitchTable}

theorem origin_eq (h : Matches r l plain t) (origin : BranchOrigin) : t.origin l origin = plain.origin r origin := by
  have hanchor : t.anchorInstr l = plain.anchorInstr r := by
    have ht : t.anchor = plain.anchor := by rw [h.same]
    have hpc : t.dexPc = plain.dexPc := by rw [h.same]
    rw [anchorInstr, anchorInstr, ht, hpc]
    cases ha : plain.anchor with
    | none => rfl
    | some id => simp only [InstrList.get_eq_present, h.anchor id ha]
  cases origin with
  | anchorPlusAdvance advance => rw [SwitchTable.origin, SwitchTable.origin, hanchor]
  | anchor => rw [SwitchTable.origin, SwitchTable.origin, hanchor]
  | tableStart => rw [SwitchTable.origin, SwitchTable.origin, h.same]
  | methodStart => rfl

theorem image_eq (h : Matches r l plain t) (origin : BranchOrigin) : t.image l origin = plain.image r origin := by
  have hpayload : t.payload = plain.payload := by rw [h.same]
  rw [image, image, h.origin_eq, h.targets, hpayload]

end SwitchTable.Matches

theorem checkOrigins_eq {r l : InstrList} {plain tables : List SwitchTable} (origin : BranchOrigin)
    (h : List.Forall₂ (SwitchTable.Matches r l) plain tables) :
    checkOrigins l origin tables = checkOrigins r origin plain := by
  induction h with
  | nil => rfl
  | @cons p t plain tables hpt _ ih =>
    rw [checkOrigins_cons, checkOrigins_cons, hpt.origin_eq, ih]

theorem placements_tables {r l : InstrList} {plain tables : List SwitchTable} (origin : BranchOrigin)
    (h : List.Forall₂ (SwitchTable.Matches r l) plain tables) :
    tables.map (fun t => (⟨t.offset, t.image l origin⟩ : Placement)) = plain.map fun t => ⟨t.offset, t.image r origin⟩ := by
  induction h with
  | nil => rfl
  | @cons p t plain tables hpt _ ih =>
    have hoffset : t.offset = p.offset := by rw [hpt.same]
    rw [List.map_cons, List.map_cons, hpt.image_eq, hoffset, ih]

theorem filterMap_plain {β : Type} {f : InstrId × Instruction → Option β} (hf : ∀ e, isPlain e = false → f e = none)
    {entries entries' : List (InstrId × Instruction)} (h : entries.filter isPlain = entries'.filter isPlain) :
    entries.filterMap f = entries'.filterMap f := by
  have hfilter : ∀ es : List (InstrId × Instruction), (es.filter isPlain).filterMap f = es.filterMap f := by
    intro es
    rw [List.filterMap_filter]
    refine List.filterMap_congr fun e _ => ?_
    cases he : isPlain e <;> simp [hf, he]
  rw [← hfilter entries, h, hfilter]

/-- A record in its layout. -/
theorem layOut_numbered {width stop : UInt32} {records : List Instruction} {stamped : List (InstrId × Instruction)}
    (h : FixedWidth.layOut width (numbered records) 0 = .ok (stamped, stop)) {id : InstrId} {i : Instruction}
    (hi : records[id]? = some i) :
    ∃ offset, (id, { i with offset }) ∈ stamped ∧
      (InstrList.ofRecords (stamped.map (·.2))).contents[id]? = some { i with offset } := by
  have hnumbered : (numbered records)[id]? = some (id, i) := by
    rw [numbered, List.getElem?_mapIdx, hi]
    rfl
  obtain ⟨offset, hoffset⟩ := FixedWidth.layOut_getElem? h hnumbered
  refine ⟨offset, List.mem_of_getElem? hoffset, ?_⟩
  rw [InstrList.contents_ofRecords, List.getElem?_map, hoffset]
  rfl

section Stamped
variable {width stop stop' : UInt32} {l₀ l l' : InstrList} {records : List Instruction} {ids : List InstrId}
  {cases : InstrId → List InstrId} {stamped : List (InstrId × Instruction)}

/-- A plain record is laid out in a list as it is among the records. -/
theorem contents_of_plain (h : FixedWidth.layOut width (numbered records) 0 = .ok (stamped, stop)) (hl : l'.Links ids)
    (hfilter : l'.entries.filter isPlain = stamped.filter isPlain) {id : InstrId} {i : Instruction}
    (hi : records[id]? = some i) (hplain : isPlain (id, i) = true) :
    l'.contents[id]? = (InstrList.ofRecords (stamped.map (·.2))).contents[id]? := by
  obtain ⟨offset, hmem, hcontents⟩ := layOut_numbered h hi
  have hentry : (id, { i with offset }) ∈ l'.entries.filter isPlain := by
    rw [hfilter]
    exact List.mem_filter.mpr ⟨hmem, hplain⟩
  have hnamed := (List.mem_filter.mp hentry).1
  rw [hl.entries_eq] at hnamed
  rw [hcontents]
  exact (FixedWidth.mem_named.mp hnamed).2

/-- A case label has the offset of its label. -/
theorem offsetOf_case (hlab : InstrList.Labelled l₀ ids cases l) (hl : l'.Links (InstrList.interleave ids cases))
    (h : FixedWidth.layOut width l.entries 0 = .ok (l'.entries, stop)) {x c : InstrId} {i : Instruction} (hx : x ∈ ids)
    (hi : l.contents[x]? = some i) (hidle : FixedWidth.isIdle i = true) (hc : c ∈ cases x) :
    l'.offsetOf c = l'.offsetOf x := by
  obtain ⟨pre, post, rfl⟩ := List.append_of_mem hx
  have hcases : ∀ e ∈ FixedWidth.named l (cases x), FixedWidth.isIdle e.2 = true := by
    rintro ⟨c', i'⟩ hc'
    obtain ⟨hc', hi'⟩ := FixedWidth.mem_named.mp hc'
    simp [FixedWidth.isIdle, Instruction.isLiveTarget, hlab.caseLabel hc' hi', Opcode.isPseudo]
  -- the label and its case labels are idle, so all of them stand where the code before them ends
  rw [hlab.links.entries_eq, InstrList.interleave_split] at h
  change FixedWidth.layOut width (FixedWidth.named l _) 0 = _ at h
  rw [FixedWidth.named_append, FixedWidth.named_cons hi, FixedWidth.named_append] at h
  obtain ⟨front, middle, back, -, hback, hentries⟩ := FixedWidth.layOut_append.mp h
  obtain ⟨offset, next, tail, hplace, htail, rfl⟩ := FixedWidth.layOut_cons.mp hback
  rw [FixedWidth.place_idle hidle] at hplace
  cases hplace
  obtain ⟨labels, _, rest, hlabels, -, rfl⟩ := FixedWidth.layOut_append.mp htail
  rw [FixedWidth.layOut_idle hcases] at hlabels
  cases hlabels
  have hoffset : ∀ id i, (id, i) ∈ l'.entries → l'.offsetOf id = i.offset := by
    intro id i hmem
    rw [hl.entries_eq] at hmem
    rw [InstrList.offsetOf, (FixedWidth.mem_named.mp hmem).2]
    rfl
  obtain ⟨ic, hic⟩ := InstrList.getElem?_contents_of_lt (hlab.lt_size hc)
  rw [hoffset c { ic with offset := middle }, hoffset x { i with offset := middle }]
  · rw [hentries]
    simp
  · have hmem := List.mem_map_of_mem (f := fun (id, i) => (id, { i with offset := middle }))
      (FixedWidth.mem_named.mpr ⟨hc, hic⟩)
    rw [hentries]
    exact List.mem_append_right _ (List.mem_cons_of_mem _ (List.mem_append_left _ hmem))

/-- What the tables of a method may refer to: labels as targets, and a target instruction as anchor. -/
structure SwitchTable.Refers (records : List Instruction) (t : SwitchTable) : Prop where
  targets : ∀ label ∈ t.targets.toList, ∃ pc, records[label]? = some (.pseudo .normalBlockLabel pc)
  anchor : ∀ id, t.anchor = some id → ∃ i, records[id]? = some i ∧ i.isLiveTarget = true

theorem matches_of_redirected {retainNops : Bool} (hl₀ : l₀.contents = records)
    (hlab : InstrList.Labelled l₀ (keptIds retainNops records) cases l)
    (hl : l'.Links (InstrList.interleave (keptIds retainNops records) cases))
    (h : FixedWidth.layOut width l.entries 0 = .ok (l'.entries, stop))
    (h' : FixedWidth.layOut width (numbered records) 0 = .ok (stamped, stop'))
    (hfilter : l'.entries.filter isPlain = stamped.filter isPlain) {plain t : SwitchTable}
    (hrefers : plain.Refers records) (hr : Redirected cases plain t) :
    SwitchTable.Matches (InstrList.ofRecords (stamped.map (·.2))) l' plain t := by
  have htarget : ∀ label ∈ plain.targets.toList, ∀ target, AtLabel cases label target →
      l'.offsetOf target = (InstrList.ofRecords (stamped.map (·.2))).offsetOf label := by
    intro label hlabel target hat
    obtain ⟨pc, hpc⟩ := hrefers.targets label hlabel
    have hsame : l'.offsetOf label = (InstrList.ofRecords (stamped.map (·.2))).offsetOf label := by
      rw [InstrList.offsetOf, contents_of_plain h' hl hfilter hpc rfl, InstrList.offsetOf]
    have hlt : label < l₀.arena.size := by
      rw [← l₀.contents_length, hl₀]
      exact (List.getElem?_eq_some_iff.mp hpc).1
    have hcontents : l.contents[label]? = some (.pseudo .normalBlockLabel pc) := by rw [hlab.contents_of_lt hlt, hl₀, hpc]
    -- The target is the label itself, or a case label behind it, which stands at the same offset.
    rcases hat with rfl | hcase
    · exact hsame
    · have hmem : label ∈ keptIds retainNops records := mem_keptIds.mpr ⟨_, hpc, by simp [Instruction.pseudo]⟩
      rw [offsetOf_case hlab hl h hmem hcontents rfl hcase, hsame]
  refine ⟨hr.same, ?_, fun id hid => ?_⟩
  · have hlists : ∀ labels targets : List InstrId, List.Forall₂ (AtLabel cases) labels targets →
        (∀ label ∈ labels, label ∈ plain.targets.toList) →
        targets.map l'.offsetOf = labels.map (InstrList.ofRecords (stamped.map (·.2))).offsetOf := by
      intro labels targets hall hsub
      induction hall with
      | nil => rfl
      | @cons label target labels targets hat _ ih =>
        rw [List.map_cons, List.map_cons, htarget label (hsub label List.mem_cons_self) target hat,
          ih fun label hlabel => hsub label (List.mem_cons_of_mem _ hlabel)]
    exact hlists _ _ hr.targets fun _ hlabel => hlabel
  · -- An anchor is a machine instruction, so no filter takes it away.
    obtain ⟨i, hi, hlive⟩ := hrefers.anchor id hid
    refine contents_of_plain h' hl hfilter hi ?_
    rw [Instruction.isLiveTarget, Bool.and_eq_true, Bool.not_eq_true'] at hlive
    cases hop : i.opcode <;> simp_all [isPlain, Opcode.isPseudo]

end Stamped

end MethodAssembler
