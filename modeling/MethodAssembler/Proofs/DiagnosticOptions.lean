import MethodAssembler.Proofs.Outline

/-! # Diagnostic options

Listings, retained nops and checks of tables are for whoever looks at an assembly. They change the instruction list on the
way, but not what comes out. -/

namespace MethodAssembler

namespace Labelling
variable {g g' : Labelling}

theorem caseTargets_agree (ht : ∀ t i, g.caseTarget t i = g'.caseTarget t i) (hg : ∀ n, ∃ m, g.reserveCase n = .ok m)
    (hg' : ∀ n, ∃ m, g'.reserveCase n = .ok m) (t : SwitchTable) (left i count count' : Nat) :
    Checked.Agree (fun (labels, _) (labels', _) => labels = labels') (g.caseTargets t left i count)
      (g'.caseTargets t left i count') := by
  induction left generalizing i count count' with
  | zero => exact .ok rfl
  | succ left ih =>
    obtain ⟨m, hm⟩ := hg count
    obtain ⟨m', hm'⟩ := hg' count'
    simp only [caseTargets, ht, hm, hm', Checked.ok_bind]
    refine (Checked.Agree.refl (g'.caseTarget t i)).bind ?_
    rintro label _ rfl
    refine (ih (i + 1) m m').bind ?_
    rintro ⟨rest, n⟩ ⟨_, n'⟩ rfl
    exact .ok rfl

/-- If there is always room for case labels, it does not matter whether cases get one. -/
theorem tableTargets_agree (ht : ∀ t i, g.caseTarget t i = g'.caseTarget t i) (hg : ∀ n, ∃ m, g.reserveCase n = .ok m)
    (hg' : ∀ n, ∃ m, g'.reserveCase n = .ok m) (tables : List SwitchTable) (count count' : Nat) :
    Checked.Agree (fun (plain, _) (plain', _) => plain = plain') (g.tableTargets tables count)
      (g'.tableTargets tables count') := by
  induction tables generalizing count count' with
  | nil => exact .ok rfl
  | cons t tables ih =>
    refine (caseTargets_agree ht hg hg' t t.payload.size 0 count count').bind ?_
    rintro ⟨labels, n⟩ ⟨_, n'⟩ rfl
    refine (ih n n').bind ?_
    rintro ⟨rest, m⟩ ⟨_, m'⟩ rfl
    exact .ok rfl

end Labelling

namespace Draft

theorem caseTarget_labelling (s : Draft) (config config' : Config) (t : SwitchTable) (i : Nat) :
    (s.labelling config).caseTarget t i = (s.labelling config').caseTarget t i := by
  simp [Labelling.caseTarget, labelling]

theorem reserveCase_labelling (s : Draft) {config : Config} (h : config.maxInstructions = none) (n : Nat) :
    ∃ m, (s.labelling config).reserveCase n = .ok m := by
  rw [Labelling.reserveCase, labelling, h]
  split
  · exact ⟨n + 1, rfl⟩
  · exact ⟨n, rfl⟩

end Draft

namespace Description

/-- The layout of a method depends on its configuration through the limit alone. -/
theorem lay_agree (d : Description) {config config' : Config} (h : config.maxInstructions = none)
    (h' : config'.maxInstructions = none) : Checked.Agree (· = ·) (d.lay config) (d.lay config') := by
  rw [lay, lay, h, h']
  refine (Checked.Agree.refl (d.filling none)).bind ?_
  rintro f _ rfl
  refine (Checked.Agree.refl d.liveness).bind ?_
  rintro live _ rfl
  -- Cases may get labels of their own, but without a limit the targets of a plain resolution are the same.
  refine (Labelling.tableTargets_agree (f.draft.caseTarget_labelling config config') (f.draft.reserveCase_labelling h)
    (f.draft.reserveCase_labelling h') (d.dataSections f).switchTables _ _).bind ?_
  rintro ⟨tables, _⟩ ⟨_, _⟩ rfl
  exact .refl _

/-- Only the findings look at whether tables are verified. -/
theorem finish_agree (d : Description) (l : Laid) {config config' : Config}
    (hset : config.instructionSet = config'.instructionSet) (hbranch : config.branchOrigin = config'.branchOrigin) :
    Checked.Agree
      (fun out out' => out.method = out'.method ∧ out.patches = out'.patches ∧
        (config.verifyTables = config'.verifyTables → out.diagnostics = out'.diagnostics))
      (l.finish d config) (l.finish d config') := by
  rw [Laid.finish, Laid.finish, hbranch]
  refine (Checked.Agree.refl (checkOrigins _ _ _)).bind ?_
  rintro _ _ rfl
  refine (Checked.Agree.refl (MappingTable.encode _)).bind ?_
  rintro mapping _ rfl
  refine (Checked.Agree.refl (ReferenceMap.create _ _)).bind ?_
  rintro references _ rfl
  refine (Checked.Agree.refl (VmapTable.build _ _ _ _)).bind ?_
  rintro vmapTable _ rfl
  refine .ok ⟨?_, rfl, fun hverify => ?_⟩
  · simp only [output, hset, hbranch]
  · simp only [output, MethodUnit.findings, hverify]

theorem outline_agree (d : Description) {config config' : Config} (hset : config.instructionSet = config'.instructionSet)
    (horigin : config.switchOrigin = config'.switchOrigin) (h : config.maxInstructions = none)
    (h' : config'.maxInstructions = none) :
    Checked.Agree
      (fun out out' => out.method = out'.method ∧ out.patches = out'.patches ∧
        (config.verifyTables = config'.verifyTables → out.diagnostics = out'.diagnostics))
      (d.outline config) (d.outline config') := by
  have hbranch : config.branchOrigin = config'.branchOrigin := by
    rw [Config.branchOrigin, Config.branchOrigin, hset, horigin]
  refine (d.lay_agree h h').bind ?_
  rintro l _ rfl
  exact d.finish_agree l hset hbranch

/-- Configurations that differ in what is listed, kept and checked compile a description to the same method and
    patches, or refuse it with the same error. -/
theorem compile_agree_of_diagnostics (d : Description) {config config' : Config}
    (hset : config.instructionSet = config'.instructionSet) (horigin : config.switchOrigin = config'.switchOrigin)
    (h : config.maxInstructions = none) (h' : config'.maxInstructions = none) :
    Checked.Agree
      (fun out out' => out.method = out'.method ∧ out.patches = out'.patches ∧
        (config.verifyTables = config'.verifyTables → out.diagnostics = out'.diagnostics))
      (d.compile config).outcome (d.compile config').outcome := by
  have hconfigured : (d.configure config).instructionSet = (d.configure config').instructionSet := by
    simp only [configure, hset]
  rw [compile_outcome, compile_outcome]
  exact @outline_agree d (d.configure config) (d.configure config') hconfigured horigin h h'

/-- The sample compiles to the same method with a label for each case, with nops kept and with unchecked tables. -/
theorem compile_agree_of_diagnostics_sample : ∃ out out', (sample.compile {}).outcome = .ok out ∧
    (sample.compile { verbose := true, retainNops := true, verifyTables := false }).outcome = .ok out' ∧
    out.method = out'.method ∧ out.patches = out'.patches := by
  obtain ⟨out, hout⟩ := exists_compile_sample
  obtain ⟨out', hout', hmethod, hpatches, -⟩ := (@compile_agree_of_diagnostics sample {}
    { verbose := true, retainNops := true, verifyTables := false } rfl rfl rfl rfl).exists_ok hout
  exact ⟨out, out', hout, hout', hmethod, hpatches⟩

end Description

end MethodAssembler
