import MethodAssembler.Proofs.LinkedTargets

/-! # Case labels

A verbose assembly gives every switch case a label of its own, behind the label of the source PC that the case leads to.
Each of them is a new instruction, so the list without them is the list from before, and no two cases share one. Cases
that lead to one label have their own labels in a row behind it, the last one resolved first. -/

namespace MethodAssembler

namespace InstrList
variable {l l' l'' : InstrList} {n : Nat} {a b : InstrId}

/-- Instruction `b` is behind `a` in the list, and what is between them has the number `n` or a later one. -/
def Behind (l : InstrList) (n : Nat) (a b : InstrId) : Prop :=
  ∃ before between after, l.order = before ++ a :: (between ++ b :: after) ∧ ∀ c ∈ between, n ≤ c

/-- A list that came from another by linking new case labels into it. -/
structure GainsLabels (l l' : InstrList) : Prop where
  links : ∃ ids, l'.Links ids
  /-- Without the new instructions the list is what it was. -/
  order : l'.order.filter (· < l.arena.size) = l.order
  contents : ∃ labels, l'.contents = l.contents ++ labels ∧ ∀ i ∈ labels, i.opcode = .pseudo .caseLabel

namespace GainsLabels

theorem size_le (h : GainsLabels l l') : l.arena.size ≤ l'.arena.size := by
  obtain ⟨labels, hcontents, -⟩ := h.contents
  rw [← contents_length, ← contents_length, hcontents, List.length_append]
  exact Nat.le_add_right _ _

theorem refl (h : ∃ ids, l.Links ids) : GainsLabels l l := by
  obtain ⟨ids, hids⟩ := h
  refine ⟨⟨ids, hids⟩, ?_, [], by simp, by simp⟩
  rw [hids.order_eq, List.filter_eq_self]
  exact fun id hid => decide_eq_true (hids.lt_size hid)

theorem trans (h : GainsLabels l l') (h' : GainsLabels l' l'') : GainsLabels l l'' := by
  obtain ⟨labels, hcontents, hlabels⟩ := h.contents
  obtain ⟨labels', hcontents', hlabels'⟩ := h'.contents
  refine ⟨h'.links, ?_, labels ++ labels', by rw [hcontents', hcontents, List.append_assoc], ?_⟩
  · rw [← h.order, ← h'.order, List.filter_filter]
    refine List.filter_congr fun id _ => ?_
    have hle := h.size_le
    by_cases hid : id < l.arena.size
    · simp [hid, Nat.lt_of_lt_of_le hid hle]
    · simp [hid]
  · intro i hi
    rcases List.mem_append.mp hi with hi | hi
    · exact hlabels i hi
    · exact hlabels' i hi

theorem get (h : GainsLabels l l') {id : InstrId} {i : Instruction} (hi : l.get id = .ok i) : l'.get id = .ok i := by
  obtain ⟨labels, hcontents, -⟩ := h.contents
  rw [get_eq_ok] at hi ⊢
  rw [hcontents, List.getElem?_append_left (List.getElem?_eq_some_iff.mp hi).1]
  exact hi

/-- New instructions may come between the two, and nothing else. -/
theorem behind (h : GainsLabels l l') (hn : n ≤ l.arena.size) (hb : l.Behind n a b) : l'.Behind n a b := by
  obtain ⟨before, between, after, horder, hnew⟩ := hb
  have hfilter := h.order.trans horder
  obtain ⟨before', rest, horder', -, hrest⟩ := List.filter_eq_append_iff.mp hfilter
  obtain ⟨skipped, rest, rfl, -, -, hrest⟩ := List.filter_eq_cons_iff.mp hrest
  obtain ⟨between', rest, rfl, hbetween, hrest⟩ := List.filter_eq_append_iff.mp hrest
  obtain ⟨skipped', after', rfl, hskipped, -, -⟩ := List.filter_eq_cons_iff.mp hrest
  refine ⟨before' ++ skipped, between' ++ skipped', after', by simp [horder'], fun c hc => ?_⟩
  by_cases hold : c < l.arena.size
  · rcases List.mem_append.mp hc with hc | hc
    · exact hnew c (hbetween ▸ List.mem_filter.mpr ⟨hc, decide_eq_true hold⟩)
    · exact absurd (decide_eq_true hold) (hskipped c hc)
  · exact Nat.le_trans hn (Nat.not_lt.mp hold)

theorem of_insert {before after : List InstrId} {i : Instruction} (h : l.Links (before ++ a :: after))
    (h' : l'.Links (before ++ a :: l.arena.size :: after)) (hcontents : l'.contents = l.contents ++ [i])
    (hop : i.opcode = .pseudo .caseLabel) : GainsLabels l l' := by
  refine ⟨⟨_, h'⟩, ?_, [i], hcontents, by simpa using hop⟩
  have hold : ∀ id ∈ before ++ a :: after, decide (id < l.arena.size) = true := fun id hid => decide_eq_true (h.lt_size hid)
  rw [h'.order_eq, h.order_eq]
  conv_rhs => rw [← List.filter_eq_self.mpr hold]
  simp [List.filter_append, List.filter_cons]

end GainsLabels

end InstrList

namespace MethodUnit
variable {u u' u'' : MethodUnit} {t : SwitchTable} {n i : Nat} {target : InstrId}

/-- A case leads to a case label with its key and its source PC, behind the label of that source PC. Only instructions
    with the number `n` or a later one are between the two. -/
def LeadsToOwn (u : MethodUnit) (n : Nat) (t : SwitchTable) (i : Nat) (target : InstrId) : Prop :=
  ∃ key pc label record, t.payload.key i = .ok key ∧ t.caseDexPc i = .ok pc ∧ u.blockLabel? pc = some label ∧
    u.list.get target = .ok record ∧ record.opcode = .pseudo .caseLabel ∧
    record.operands[0]? = some key ∧ record.dexPc = pc ∧
    n ≤ target ∧ u.list.Behind n label target

/-- A unit on its way from another while a verbose assembly resolves cases. -/
structure GainsLabels (u u' : MethodUnit) : Prop where
  blockLabels : u'.blockLabels = u.blockLabels
  config : u'.config = u.config
  list : u.list.GainsLabels u'.list

namespace GainsLabels

theorem refl (h : ∃ ids, u.list.Links ids) : GainsLabels u u := ⟨rfl, rfl, .refl h⟩

theorem trans (h : GainsLabels u u') (h' : GainsLabels u' u'') : GainsLabels u u'' :=
  ⟨h'.blockLabels.trans h.blockLabels, h'.config.trans h.config, h.list.trans h'.list⟩

theorem withTables (h : GainsLabels u u') (tables : List SwitchTable) :
    GainsLabels u { u' with data := { u'.data with switchTables := tables } } := ⟨h.blockLabels, h.config, h.list⟩

theorem leadsToOwn (h : GainsLabels u u') (hn : n ≤ u.list.arena.size) (hc : u.LeadsToOwn n t i target) :
    u'.LeadsToOwn n t i target := by
  obtain ⟨key, pc, label, record, hkey, hpc, hlabel, hget, hop, hoperand, hdex, hnew, hbehind⟩ := hc
  refine ⟨key, pc, label, record, hkey, hpc, ?_, h.list.get hget, hop, hoperand, hdex, hnew, h.list.behind hn hbehind⟩
  rw [blockLabel?, h.blockLabels]
  exact hlabel

end GainsLabels

/-! ### Running -/

theorem resolveCase_labels (hl : ∃ ids, u.list.Links ids) (hv : u.config.verbose = true) (hn : n ≤ u.list.arena.size)
    (h : resolveCase t i u = .ok target u') :
    GainsLabels u u' ∧ u'.data = u.data ∧ target = u.list.arena.size ∧ u'.list.arena.size = u.list.arena.size + 1 ∧
      u'.LeadsToOwn n t i target := by
  obtain ⟨ids, hids⟩ := hl
  obtain ⟨pc, label, hpc, hlabel, ⟨hplain, -⟩ | ⟨-, rfl, key, before, after, l', hkey, rfl, rfl, hlinks, hcontents⟩⟩ :=
    resolveCase_inv hids h
  · rw [hv] at hplain
    cases hplain
  have hget : l'.get u.list.arena.size = .ok (caseLabel key pc) := by
    rw [InstrList.get_eq_ok, hcontents, ← u.list.contents_length]
    exact List.getElem?_concat_length
  refine ⟨⟨rfl, rfl, .of_insert hids hlinks hcontents rfl⟩, rfl, rfl, ?_, ?_⟩
  · rw [← InstrList.contents_length, hcontents, List.length_append, InstrList.contents_length]
    rfl
  · exact ⟨key, pc, label, _, hkey, hpc, hlabel, hget, rfl, by simp [caseLabel], rfl, hn,
      before, [], after, hlinks.order_eq, by simp⟩

theorem resolveCases_labels {done rest : List SwitchTable} {t' : SwitchTable} {left : Nat} (hl : ∃ ids, u.list.Links ids)
    (hv : u.config.verbose = true) (hn : n ≤ u.list.arena.size) (htables : u.data.switchTables = done ++ t' :: rest)
    (h : resolveCases done.length t left i u = .ok () u') :
    GainsLabels u u' ∧ u'.list.arena.size = u.list.arena.size + left ∧
      (∀ k < left, u'.LeadsToOwn n t (i + k) (u.list.arena.size + k)) ∧
      u'.data.switchTables = done ++ { t' with targets := t'.targets ++ List.range' u.list.arena.size left } :: rest := by
  induction left generalizing u t' i with
  | zero =>
    cases h
    exact ⟨.refl hl, rfl, by simp, by simp [htables]⟩
  | succ left ih =>
    obtain ⟨target, u₁, hcase, h⟩ := Stateful.bind_eq_ok.mp h
    obtain ⟨hlabels, hdata, rfl, hsize, hleads⟩ := resolveCase_labels hl hv hn hcase
    rw [Stateful.bind_of_ok (modifyTable_run _ (hdata ▸ htables))] at h
    have hstep := hlabels.withTables (done ++ { t' with targets := t'.targets.push u.list.arena.size } :: rest)
    obtain ⟨hrest, hsize', hleads', hresult⟩ :=
      ih hstep.list.links (hstep.config ▸ hv) (Nat.le_trans hn hstep.list.size_le) rfl h
    simp only [hsize] at hsize' hleads' hresult
    refine ⟨hstep.trans hrest, by omega, fun k hk => ?_, ?_⟩
    · cases k with
      -- The first case leads to the label just made, and the labels that follow leave it where it is.
      | zero => exact hrest.leadsToOwn (Nat.le_trans hn hstep.list.size_le) hleads
      | succ k =>
        have hk' := hleads' k (by omega)
        rwa [Nat.add_assoc, Nat.add_comm 1 k, Nat.add_assoc, Nat.add_comm 1 k] at hk'
    · simp [hresult, List.range'_succ]

theorem resolveTables_labels (done : List SwitchTable) {tables : List SwitchTable} (hl : ∃ ids, u.list.Links ids)
    (hv : u.config.verbose = true) (hn : n ≤ u.list.arena.size) (htables : u.data.switchTables = done ++ tables)
    (h : resolveTables done.length tables u = .ok () u') :
    GainsLabels u u' ∧ ∃ resolved count, u'.data.switchTables = done ++ resolved ∧
      u'.list.arena.size = u.list.arena.size + count ∧
      resolved.flatMap (·.targets.toList) = List.range' u.list.arena.size count ∧
      ∀ r ∈ resolved, ∀ i target, r.targets[i]? = some target → u'.LeadsToOwn n r i target := by
  induction tables generalizing u done with
  | nil =>
    cases h
    exact ⟨.refl hl, [], 0, htables, rfl, rfl, by simp⟩
  | cons t tables ih =>
    rw [resolveTables, Stateful.bind_of_ok (modifyTable_run _ htables)] at h
    obtain ⟨_, u₁, hcases, h⟩ := Stateful.bind_eq_ok.mp h
    have hclear := (GainsLabels.refl hl).withTables (done ++ { t with targets := #[] } :: tables)
    obtain ⟨hlabels₁, hsize₁, hleads₁, hresult₁⟩ := resolveCases_labels hclear.list.links hv hn rfl hcases
    have htables₁ : u₁.data.switchTables =
        (done ++ [{ t with targets := (List.range' u.list.arena.size t.payload.size).toArray }]) ++ tables := by
      simp [hresult₁]
    have hstep := hclear.trans hlabels₁
    obtain ⟨hlabels₂, resolved, count, hresult₂, hsize₂, htargets₂, hleads₂⟩ :=
      ih (done ++ [_]) hstep.list.links (hstep.config ▸ hv) (Nat.le_trans hn hstep.list.size_le) htables₁ (by simpa using h)
    rw [hsize₁] at hsize₂ htargets₂
    refine ⟨hstep.trans hlabels₂, { t with targets := (List.range' u.list.arena.size t.payload.size).toArray } :: resolved,
      t.payload.size + count, by simp [hresult₂], ?_, ?_, ?_⟩
    · rw [hsize₂, Nat.add_assoc]
    · -- The labels of this table come first in the arena, and those of the tables behind it follow.
      rw [List.flatMap_cons, htargets₂]
      exact List.range'_append_1
    · refine List.forall_mem_cons.mpr ⟨fun i target htarget => ?_, hleads₂⟩
      rw [List.getElem?_toArray] at htarget
      obtain ⟨hi, rfl⟩ := List.getElem?_eq_some_iff.mp htarget
      rw [List.getElem_range', Nat.one_mul]
      rw [List.length_range'] at hi
      have hlead := hleads₁ i hi
      rw [Nat.zero_add] at hlead
      exact hlabels₂.leadsToOwn (Nat.le_trans hn hstep.list.size_le) hlead

/-- A verbose assembly that resolves its switches adds one case label for each case to the list and changes nothing else
    of it. The labels of source PCs stay as they are, and the cases of all tables in their order lead to the new labels
    in the order of their allocation. -/
theorem resolveSwitches_labels_cases {u u' : MethodUnit} {ids : List InstrId} (hids : u.list.Links ids)
    (hv : u.config.verbose = true) (h : resolveSwitches u = .ok () u') :
    u.GainsLabels u' ∧
    List.Forall₂ (fun t r => r = { t with targets := r.targets }) u.data.switchTables u'.data.switchTables ∧
    u'.data.switchTables.flatMap (·.targets.toList) =
      List.range' u.list.arena.size (u'.list.arena.size - u.list.arena.size) ∧
    ∀ t ∈ u'.data.switchTables, t.targets.size = t.payload.size ∧
      ∀ i target, t.targets[i]? = some target → u'.LeadsToOwn u.list.arena.size t i target := by
  obtain ⟨-, htables, hresolved⟩ := resolveSwitches_eq_ok ⟨ids, hids⟩ h
  obtain ⟨hlabels, resolved, count, hresult, hsize, htargets, hleads⟩ :=
    resolveTables_labels [] ⟨ids, hids⟩ hv (Nat.le_refl _) rfl h
  rw [List.nil_append] at hresult
  subst hresult
  rw [hsize, Nat.add_sub_cancel_left]
  exact ⟨hlabels, htables, htargets, fun t ht => ⟨(hresolved t ht).count, hleads t ht⟩⟩

/-- Two tables, and all of their cases lead to one label. -/
def crowdedLabel : MethodUnit :=
  { dispatch with
    config := { dispatch.config with verbose := true }
    data := { switchTables := [
      { payload := .packed 7 [3, 3], dexPc := 0, anchor := some 0 },
      { payload := .packed 1 [3], dexPc := 0, anchor := some 0 }] } }

theorem crowdedLabel_links : crowdedLabel.list.Links [0, 1] := by
  obtain ⟨ids, hids⟩ := dispatch_reachable.links
  have horder : [0, 1] = ids := hids.order_eq
  exact horder ▸ hids

/-- The labels of later cases come before those of earlier ones. -/
theorem resolveSwitches_labels_cases_crowded : crowdedLabel.list.Links [0, 1] ∧ crowdedLabel.config.verbose = true ∧
    ∃ u', resolveSwitches crowdedLabel = .ok () u' ∧ u'.data.switchTables.map (·.targets) = [#[2, 3], #[4]] ∧
      u'.list.order = [0, 1, 4, 3, 2] ∧ crowdedLabel.GainsLabels u' ∧
      ∀ t ∈ u'.data.switchTables, ∀ i target, t.targets[i]? = some target → u'.LeadsToOwn 2 t i target := by
  obtain ⟨⟨⟩, hrun⟩ := Stateful.exists_of_isOk (r := resolveSwitches crowdedLabel) (by decide +kernel)
  obtain ⟨hlabels, -, -, hcases⟩ := resolveSwitches_labels_cases crowdedLabel_links rfl hrun
  exact ⟨crowdedLabel_links, rfl, _, hrun, by decide +kernel, by decide +kernel, hlabels, fun t ht => (hcases t ht).2⟩

end MethodUnit

end MethodAssembler
