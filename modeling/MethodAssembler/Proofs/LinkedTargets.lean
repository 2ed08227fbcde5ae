import MethodAssembler.Proofs.CodeImage

/-! # Switch targets in the code

Labels are registered before the list takes its final shape, so the label of a case may have left the list, or never
have been in it. A verbose resolution refuses such a label, and its targets are in the list. A plain one takes every
label as it is: its targets are in the list exactly if the labels are. Assigning offsets then reaches the targets in the
list and no others. -/

namespace MethodAssembler

/-! ### Lists -/

theorem InstrList.Links.mem_entries {l : InstrList} {ids : List InstrId} {id : InstrId} {i : Instruction}
    (h : l.Links ids) :
    (id, i) ∈ l.entries ↔ id ∈ ids ∧ l.contents[id]? = some i := by
  rw [h.entries_eq]
  exact FixedWidth.mem_named

namespace MethodUnit

/-! ### Cases -/

/-- A unit on its way from another while cases are resolved: it has the same labels, its list still links a sequence, and
    only a verbose assembly adds to it. -/
structure Extends (u u' : MethodUnit) : Prop where
  labels : u'.blockLabels = u.blockLabels
  config : u'.config = u.config
  links : ∃ ids, u'.list.Links ids
  order : u.list.order ⊆ u'.list.order
  plain : u.config.verbose = false → u'.list = u.list

/-- A resolved case leads to an instruction of the list in a verbose assembly, and to the label of its source PC in
    another. -/
def Leads (u : MethodUnit) (t : SwitchTable) (i : Nat) (target : InstrId) : Prop :=
  ∃ pc label, t.caseDexPc i = .ok pc ∧ u.blockLabel? pc = some label ∧
    (u.config.verbose = true ∧ target ∈ u.list.order ∨ u.config.verbose = false ∧ target = label)

/-- A table has a target for each of its cases. -/
structure Resolved (u : MethodUnit) (t : SwitchTable) : Prop where
  count : t.targets.size = t.payload.size
  leads : ∀ i target, t.targets[i]? = some target → u.Leads t i target

namespace Extends
variable {u u' u'' : MethodUnit} {t : SwitchTable} {i : Nat} {target : InstrId}

theorem refl (h : ∃ ids, u.list.Links ids) : Extends u u :=
  ⟨rfl, rfl, h, List.Subset.refl _, fun _ => rfl⟩

theorem trans (h : Extends u u') (h' : Extends u' u'') : Extends u u'' where
  labels := h'.labels.trans h.labels
  config := h'.config.trans h.config
  links := h'.links
  order := List.Subset.trans h.order h'.order
  plain hv := (h'.plain (h.config ▸ hv)).trans (h.plain hv)

/-- Tables are no part of it. -/
theorem withTables (h : Extends u u') (tables : List SwitchTable) :
    Extends u { u' with data := { u'.data with switchTables := tables } } :=
  ⟨h.labels, h.config, h.links, h.order, h.plain⟩

theorem blockLabel? (h : Extends u u') (pc : UInt32) : u'.blockLabel? pc = u.blockLabel? pc := by
  rw [MethodUnit.blockLabel?, h.labels]
  rfl

theorem leads (h : Extends u u') (hl : u.Leads t i target) : u'.Leads t i target := by
  obtain ⟨pc, label, hpc, hlabel, hcase⟩ := hl
  refine ⟨pc, label, hpc, (h.blockLabel? pc).trans hlabel, ?_⟩
  rw [h.config]
  exact hcase.imp_left fun hlinked => ⟨hlinked.1, h.order hlinked.2⟩

theorem resolved (h : Extends u u') (hr : u.Resolved t) : u'.Resolved t :=
  ⟨hr.count, fun i target ht => h.leads (hr.leads i target ht)⟩

end Extends

section Running
variable {u u' : MethodUnit} {t : SwitchTable}

/-- A case label that is linked behind its label. -/
theorem labelCase_eq_ok {before after : List InstrId} {label target : InstrId} {key : Int32} {pc : UInt32}
    (hids : u.list.Links (before ++ label :: after)) (h : (do
      let case ← onList (InstrList.alloc (caseLabel key pc))
      onList (InstrList.insertAfter label case)
      return case) u = .ok target u') :
    target = u.list.arena.size ∧ ∃ l', u' = { u with list := l' } ∧
      l'.Links (before ++ label :: u.list.arena.size :: after) ∧ l'.contents = u.list.contents ++ [caseLabel key pc] := by
  obtain ⟨case, u₁, halloc, h⟩ := Stateful.bind_eq_ok.mp h
  obtain ⟨_, -, ⟨-, rfl, hlist⟩, hu₁⟩ := (onList_follows (InstrList.alloc_follows (caseLabel key pc))).ok halloc
  obtain ⟨l', hinsert, hlinks, hkept⟩ := hids.insertAllocated (caseLabel key pc)
  rw [Stateful.bind_of_ok (onList_run (by rw [hlist]; exact hinsert)), hu₁] at h
  cases h
  exact ⟨rfl, l', rfl, hlinks, hkept.contents.trans (InstrList.contents_allocated _)⟩

/-- All that resolving a case can do: it takes the label as the target, or links a case label behind it. -/
theorem resolveCase_inv {ids : List InstrId} {i : Nat} {target : InstrId} (hids : u.list.Links ids)
    (h : resolveCase t i u = .ok target u') :
    ∃ pc label, t.caseDexPc i = .ok pc ∧ u.blockLabel? pc = some label ∧
      (u.config.verbose = false ∧ target = label ∧ u' = u ∨
        u.config.verbose = true ∧ target = u.list.arena.size ∧ ∃ key before after l', t.payload.key i = .ok key ∧
          ids = before ++ label :: after ∧ u' = { u with list := l' } ∧
          l'.Links (before ++ label :: u.list.arena.size :: after) ∧
            l'.contents = u.list.contents ++ [caseLabel key pc]) := by
  cases hpc : t.caseDexPc i with
  | error e => simp [resolveCase, hpc] at h
  | ok pc =>
    simp only [resolveCase, hpc, Stateful.lift_ok_bind_run, Stateful.get_bind_run] at h
    cases hlabel : u.blockLabel? pc with
    | none =>
      rw [hlabel] at h
      cases h
    | some label =>
      simp only [hlabel] at h
      refine ⟨pc, label, rfl, hlabel, ?_⟩
      cases hv : u.config.verbose with
      | false =>
        rw [hv] at h
        cases h
        exact .inl ⟨rfl, rfl, rfl⟩
      | true =>
        rw [hv, if_pos rfl] at h
        cases hn : u.list.arena[label]? with
        | none => simp [InstrList.node, hn, present] at h
        | some n =>
          simp only [InstrList.node, hn, present_some, Stateful.lift_ok_bind_run] at h
          cases hlinked : n.linked with
          | false =>
            rw [hlinked] at h
            cases h
          | true =>
            -- There is a key, since the target behind it was read.
            obtain ⟨w, hw, -⟩ := Checked.bind_eq_ok.mp (show t.payload.relativeTarget i >>= _ = _ from hpc)
            obtain ⟨key, hkey⟩ := SwitchPayload.key_of_relativeTarget hw
            simp only [hlinked, hkey, Stateful.lift_ok_bind_run, Bool.not_true, Bool.false_eq_true, if_false] at h
            obtain ⟨before, after, rfl⟩ := List.append_of_mem ((hids.linked_iff hn).mp hlinked)
            obtain ⟨rfl, l', rfl, hlinks, hcontents⟩ := labelCase_eq_ok hids h
            exact .inr ⟨rfl, rfl, key, before, after, l', hkey, rfl, rfl, hlinks, hcontents⟩

theorem resolveCase_eq_ok {i : Nat} {target : InstrId} (hl : ∃ ids, u.list.Links ids)
    (h : resolveCase t i u = .ok target u') :
    Extends u u' ∧ u'.data = u.data ∧ u'.Leads t i target := by
  obtain ⟨ids, hids⟩ := hl
  obtain ⟨pc, label, hpc, hlabel, ⟨hv, rfl, rfl⟩ | ⟨hv, rfl, key, before, after, l', -, rfl, rfl, hlinks, -⟩⟩ :=
    resolveCase_inv hids h
  · exact ⟨.refl ⟨ids, hids⟩, rfl, pc, target, hpc, hlabel, .inr ⟨hv, rfl⟩⟩
  · refine ⟨⟨rfl, rfl, ⟨_, hlinks⟩, ?_, fun hplain => ?_⟩, rfl, pc, label, hpc, hlabel, .inl ⟨hv, ?_⟩⟩
    · rw [hids.order_eq, hlinks.order_eq]
      intro y hy
      simp only [List.mem_append, List.mem_cons] at hy ⊢
      tauto
    · rw [hv] at hplain
      cases hplain
    · rw [hlinks.order_eq]
      simp

theorem resolveCases_eq_ok {done rest : List SwitchTable} {t' : SwitchTable} {left i : Nat} (hl : ∃ ids, u.list.Links ids)
    (htables : u.data.switchTables = done ++ t' :: rest) (h : resolveCases done.length t left i u = .ok () u') :
    Extends u u' ∧ ∃ targets : List InstrId, targets.length = left ∧
      (∀ k target, targets[k]? = some target → u'.Leads t (i + k) target) ∧
      u'.data.switchTables = done ++ { t' with targets := t'.targets ++ targets } :: rest := by
  induction left generalizing u t' i with
  | zero =>
    cases h
    exact ⟨.refl hl, [], rfl, by simp, by simp [htables]⟩
  | succ left ih =>
    obtain ⟨target, u₁, hcase, h⟩ := Stateful.bind_eq_ok.mp h
    obtain ⟨hext, hdata, hleads⟩ := resolveCase_eq_ok hl hcase
    rw [Stateful.bind_of_ok (modifyTable_run _ (hdata ▸ htables))] at h
    obtain ⟨hext', targets, hlength, htargets, hresult⟩ := ih (hext.withTables _).links rfl h
    refine ⟨(hext.withTables _).trans hext', target :: targets, by rw [List.length_cons, hlength], ?_, ?_⟩
    · -- A target stays in the list while later cases are resolved.
      intro k target' hk
      cases k with
      | zero =>
        cases hk
        exact hext'.leads hleads
      | succ k =>
        rw [show i + (k + 1) = i + 1 + k by omega]
        exact htargets k target' hk
    · simp [hresult]

theorem resolveTables_eq_ok (done : List SwitchTable) {tables : List SwitchTable} (hl : ∃ ids, u.list.Links ids)
    (htables : u.data.switchTables = done ++ tables) (h : resolveTables done.length tables u = .ok () u') :
    Extends u u' ∧ ∃ resolved, u'.data.switchTables = done ++ resolved ∧
      List.Forall₂ (fun t r => r = { t with targets := r.targets }) tables resolved ∧ ∀ r ∈ resolved, u'.Resolved r := by
  induction tables generalizing u done with
  | nil =>
    cases h
    exact ⟨.refl hl, [], htables, .nil, fun _ hr => absurd hr List.not_mem_nil⟩
  | cons t tables ih =>
    rw [resolveTables, Stateful.bind_of_ok (modifyTable_run _ htables)] at h
    obtain ⟨_, u₁, hcases, h⟩ := Stateful.bind_eq_ok.mp h
    have hext := (Extends.refl hl).withTables (done ++ { t with targets := #[] } :: tables)
    obtain ⟨hext₁, targets, hlength, htargets, hresult⟩ := resolveCases_eq_ok hext.links rfl hcases
    have htables₁ : u₁.data.switchTables = (done ++ [{ t with targets := targets.toArray }]) ++ tables := by
      simp [hresult]
    have hresolved : u₁.Resolved { t with targets := targets.toArray } := by
      refine ⟨hlength, fun i target htarget => ?_⟩
      rw [List.getElem?_toArray] at htarget
      exact Nat.zero_add i ▸ htargets i target htarget
    obtain ⟨hext₂, resolved, hresult₂, hsame, hrest⟩ := ih (done ++ [_]) hext₁.links htables₁ (by simpa using h)
    exact ⟨(hext.trans hext₁).trans hext₂, { t with targets := targets.toArray } :: resolved, by simp [hresult₂],
      .cons rfl hsame, List.forall_mem_cons.mpr ⟨hext₂.resolved hresolved, hrest⟩⟩

/-- Resolving gives every table its targets and changes nothing else of it. -/
theorem resolveSwitches_eq_ok (hl : ∃ ids, u.list.Links ids) (h : resolveSwitches u = .ok () u') :
    Extends u u' ∧
    List.Forall₂ (fun t r => r = { t with targets := r.targets }) u.data.switchTables u'.data.switchTables ∧
    ∀ r ∈ u'.data.switchTables, u'.Resolved r := by
  obtain ⟨hext, resolved, hresult, hsame, hresolved⟩ := resolveTables_eq_ok [] hl rfl h
  rw [List.nil_append] at hresult
  rw [hresult]
  exact ⟨hext, hsame, hresolved⟩

end Running

/-! ### Offsets of targets -/

/-- The instruction has the offset that is reached behind those before it. -/
def StampedAt (width : UInt32) (l l' : InstrList) (id : InstrId) : Prop :=
  ∃ before after i front reached offset next, l.entries = before ++ (id, i) :: after ∧
    FixedWidth.layOut width before 0 = .ok (front, reached) ∧ FixedWidth.place width reached i = .ok (offset, next) ∧
    l'.get id = .ok { i with offset }

section Stamping
variable {u u' : MethodUnit} {ids : List InstrId} {width : UInt32} {layout : DataLayout} {id : InstrId}

theorem stampedAt_of_linked (hl : u.list.Links ids) (h : assignOffsets (.fixedWidth width) u = .ok layout u')
    (hid : id ∈ ids) :
    StampedAt width u.list u'.list id := by
  obtain ⟨⟨stamped, data, layout'⟩, hlaid, -, hentries, hkept, -⟩ := (assignOffsets_follows hl).ok h
  obtain ⟨codeSize, hcode, -⟩ := laidOut_eq_ok.mp hlaid
  obtain ⟨i, hi⟩ := InstrList.getElem?_contents_of_lt (hl.lt_size hid)
  obtain ⟨before, after, hsplit⟩ := List.append_of_mem (hl.mem_entries.mpr ⟨hid, hi⟩)
  rw [hsplit] at hcode
  obtain ⟨front, reached, back, hfront, hback, rfl⟩ := FixedWidth.layOut_append.mp hcode
  obtain ⟨offset, next, tail, hplace, -, rfl⟩ := FixedWidth.layOut_cons.mp hback
  have hmem : (id, { i with offset }) ∈ u'.list.entries := hentries ▸ List.mem_append_right _ List.mem_cons_self
  exact ⟨before, after, i, front, reached, offset, next, hsplit, hfront, hplace,
    InstrList.get_eq_ok.mpr ((hkept.links ids hl).mem_entries.mp hmem).2⟩

theorem get_of_not_linked (hl : u.list.Links ids) (h : assignOffsets (.fixedWidth width) u = .ok layout u')
    (hid : id ∉ ids) :
    u'.list.get id = u.list.get id := by
  obtain ⟨_, -, -, -, hkept, -⟩ := (assignOffsets_follows hl).ok h
  rw [InstrList.get_eq_present, InstrList.get_eq_present, hkept.others id hid]

end Stamping

/-! ### Which targets are in the code -/

/-- Every target of every table is in the list. -/
def TargetsLinked (u : MethodUnit) : Prop := ∀ t ∈ u.data.switchTables, ∀ target ∈ t.targets.toList, target ∈ u.list.order

/-- A case of some table leads to the source PC of the label. -/
def LabelOfCase (u : MethodUnit) (label : InstrId) : Prop :=
  ∃ t ∈ u.data.switchTables, ∃ i < t.payload.size, ∃ pc, t.caseDexPc i = .ok pc ∧ u.blockLabel? pc = some label

section Targets
variable {u u' : MethodUnit} {t : SwitchTable} {target : InstrId}

theorem Resolved.leads_of_mem (h : u.Resolved t) (htarget : target ∈ t.targets.toList) :
    ∃ i < t.payload.size, u.Leads t i target := by
  obtain ⟨i, hi⟩ := List.mem_iff_getElem?.mp htarget
  rw [Array.getElem?_toList] at hi
  exact ⟨i, h.count ▸ (Array.getElem?_eq_some_iff.mp hi).1, h.leads i target hi⟩

theorem targetsLinked_of_verbose (h : ∀ t ∈ u.data.switchTables, u.Resolved t) (hv : u.config.verbose = true) :
    u.TargetsLinked := by
  intro t ht target htarget
  obtain ⟨i, -, _, _, -, -, ⟨-, hmem⟩ | ⟨hplain, -⟩⟩ := (h t ht).leads_of_mem htarget
  · exact hmem
  · rw [hv] at hplain
    cases hplain

/-- The targets of a plain assembly are the labels of its cases. -/
theorem targetsLinked_of_plain (h : ∀ t ∈ u.data.switchTables, u.Resolved t) (hv : u.config.verbose = false) :
    u.TargetsLinked ↔ ∀ label, u.LabelOfCase label → label ∈ u.list.order := by
  constructor
  · rintro hlinked label ⟨t, ht, i, hi, pc, hpc, hlabel⟩
    obtain ⟨target, htarget⟩ : ∃ target, t.targets[i]? = some target :=
      ⟨_, Array.getElem?_eq_getElem ((h t ht).count.symm ▸ hi)⟩
    obtain ⟨pc', label', hpc', hlabel', ⟨hverbose, -⟩ | ⟨-, rfl⟩⟩ := (h t ht).leads i target htarget
    · rw [hv] at hverbose
      cases hverbose
    · rw [hpc] at hpc'
      cases hpc'
      rw [hlabel] at hlabel'
      cases hlabel'
      exact hlinked t ht label (List.mem_of_getElem? (Array.getElem?_toList ▸ htarget))
  · intro hlabels t ht target htarget
    obtain ⟨i, hi, pc, label, hpc, hlabel, ⟨hverbose, -⟩ | ⟨-, rfl⟩⟩ := (h t ht).leads_of_mem htarget
    · rw [hv] at hverbose
      cases hverbose
    · exact hlabels target ⟨t, ht, i, hi, pc, hpc, hlabel⟩

theorem Extends.labelOfCase_iff (h : Extends u u')
    (htables : List.Forall₂ (fun t r => r = { t with targets := r.targets }) u.data.switchTables u'.data.switchTables)
    (label : InstrId) : u'.LabelOfCase label ↔ u.LabelOfCase label := by
  simp only [LabelOfCase, h.blockLabel?]
  generalize u.data.switchTables = tables at htables
  generalize u'.data.switchTables = resolved at htables
  induction htables with
  | nil => simp
  | cons hsame _ ih =>
    simp only [List.exists_mem_cons_iff, ih]
    rw [hsame]
    rfl

end Targets

/-- Resolving leads every case into the code if the assembly is verbose or the labels of the cases are in the list, and
    only then. Assigning offsets stamps the targets in the code, and leaves a target outside of it with the offset that
    it had. -/
theorem resolved_targets_in_code {u u' : MethodUnit} (hu : u.list.Reachable) (h : resolveSwitches u = .ok () u') :
    (u'.TargetsLinked ↔ u.config.verbose = true ∨ ∀ label, u.LabelOfCase label → label ∈ u.list.order) ∧
    ∀ width layout u'', assignOffsets (.fixedWidth width) u' = .ok layout u'' →
      ∀ t ∈ u'.data.switchTables, ∀ target ∈ t.targets.toList,
        (target ∈ u'.list.order → StampedAt width u'.list u''.list target) ∧
        (target ∉ u'.list.order → u''.list.get target = u'.list.get target) := by
  obtain ⟨hext, htables, hresolved⟩ := resolveSwitches_eq_ok hu.links h
  obtain ⟨ids, hids⟩ := hext.links
  constructor
  · cases hv : u.config.verbose with
    | true =>
      have hlinked := targetsLinked_of_verbose hresolved (hext.config ▸ hv)
      exact iff_of_true hlinked (.inl rfl)
    | false =>
      have hplain := targetsLinked_of_plain hresolved (hext.config ▸ hv)
      simp only [hext.labelOfCase_iff htables, hext.plain hv] at hplain
      simpa using hplain
  · intro width layout u'' hassign t ht target htarget
    rw [hids.order_eq]
    exact ⟨stampedAt_of_linked hids hassign, get_of_not_linked hids hassign⟩

/-- A dispatch through a table whose only case leads to a label. -/
def dispatch : MethodUnit where
  list := {
    arena := #[
      { instr := .target 1 0 [], next := some 1, linked := true },
      { instr := .pseudo .normalBlockLabel 3, prev := some 0, linked := true }]
    first := some 0
    last := some 1
    length := 2 }
  data := { switchTables := [{ payload := .packed 7 [3], dexPc := 0, anchor := some 0 }] }
  blockLabels := [(3, 1)]

/-- The same after the label was taken out of the list. -/
def dispatchNowhere : MethodUnit := { dispatch with list := Stateful.reached (InstrList.unlink 1 dispatch.list) }

theorem dispatch_reachable : dispatch.list.Reachable :=
  ⟨false, none, .step (.step .refl ⟨.push (.target 1 0 []), .inl ⟨_, rfl⟩⟩)
    ⟨.push (.pseudo .normalBlockLabel 3), .inl ⟨_, rfl⟩⟩⟩

theorem dispatchNowhere_reachable : dispatchNowhere.list.Reachable := by
  obtain ⟨retainNops, limit, hedits⟩ := dispatch_reachable
  have hunlink : InstrList.Step dispatch.list dispatchNowhere.list := ⟨.unlink 1, .inl ⟨none, rfl⟩⟩
  exact ⟨retainNops, limit, hedits.step hunlink⟩

/-- The label is in the list, and its offset is where the dispatch ends. -/
theorem resolved_targets_in_code_dispatch : ∃ u' u'', resolveSwitches dispatch = .ok () u' ∧
    assignOffsets (.fixedWidth 4) u' = .ok ⟨4, 8⟩ u'' ∧ u'.data.switchTables.map (·.targets) = [#[1]] ∧ u'.TargetsLinked ∧
    StampedAt 4 u'.list u''.list 1 := by
  have hrun : resolveSwitches dispatch = .ok () (Stateful.reached (resolveSwitches dispatch)) := rfl
  have hassign : assignOffsets (.fixedWidth 4) (Stateful.reached (resolveSwitches dispatch)) =
    .ok ⟨4, 8⟩ (Stateful.reached (assignOffsets (.fixedWidth 4) (Stateful.reached (resolveSwitches dispatch)))) := rfl
  obtain ⟨hlinked, hstamped⟩ := resolved_targets_in_code dispatch_reachable hrun
  have hlabels : ∀ label, dispatch.LabelOfCase label → label ∈ dispatch.list.order := by
    rintro label ⟨-, -, -, -, pc, -, hlabel⟩
    cases List.mem_singleton.mp (Labelling.mem_of_lookup hlabel)
    decide
  exact ⟨_, _, hrun, hassign, rfl, hlinked.mpr (.inr hlabels),
    (hstamped 4 _ _ hassign _ List.mem_cons_self 1 (by decide)).1 (by decide)⟩

/-- A plain assembly leads a case to a label that is not in the list, and no offset reaches it. -/
theorem plain_target_outside_code : dispatchNowhere.list.Reachable ∧
    ∃ u' u'', resolveSwitches dispatchNowhere = .ok () u' ∧ assignOffsets (.fixedWidth 4) u' = .ok ⟨4, 8⟩ u'' ∧
      u'.data.switchTables.map (·.targets) = [#[1]] ∧ u'.list.order = [0] ∧ u''.list.get 1 = u'.list.get 1 ∧
      ¬u'.TargetsLinked := by
  have hrun : resolveSwitches dispatchNowhere = .ok () (Stateful.reached (resolveSwitches dispatchNowhere)) := rfl
  have hassign : assignOffsets (.fixedWidth 4) (Stateful.reached (resolveSwitches dispatchNowhere)) =
    .ok ⟨4, 8⟩ (Stateful.reached
      (assignOffsets (.fixedWidth 4) (Stateful.reached (resolveSwitches dispatchNowhere)))) := rfl
  refine ⟨dispatchNowhere_reachable, _, _, hrun, hassign, rfl, rfl, rfl, fun hlinked => ?_⟩
  have hmem := hlinked _ List.mem_cons_self 1 (by decide)
  exact absurd hmem (by decide)

end MethodUnit

end MethodAssembler
