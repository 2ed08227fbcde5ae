import MethodAssembler.Proofs.Outline

/-! # Recorded patches

Only installing pointers records patches. So a compilation that stops before a method is laid out has recorded none, and
one that goes on has recorded those of all pointers, however it ends: what stops an installation stands behind them. -/

namespace MethodAssembler
open Stateful

/-! ### Steps on an image -/

namespace Image

theorem keeps_modifyCode (f : Bytes → Bytes) : Keeps patches (modifyCode f) := .modify fun _ => rfl

theorem keeps_report (e : Event) : Keeps patches (report e) := .modify fun _ => rfl

theorem keeps_seek (part : ImagePart) (offset : UInt32) : Keeps patches (seek part offset) :=
  (keeps_modifyCode _).bind fun _ => Keeps.get.bind fun _ => .ite (.throw _) (.pure _)

theorem keeps_installCase (t : SwitchTable) (l : InstrList) (base : UInt32) (i : Nat) (target : InstrId) :
    Keeps patches (installCase t l base i target) := by
  refine (Keeps.lift (l.get target)).bind fun instr => ?_
  cases t.payload.kind with
  | packed => exact (keeps_report _).bind fun _ => keeps_modifyCode _
  | sparse => exact (Keeps.lift (t.payload.key i)).bind fun _ => (keeps_report _).bind fun _ => keeps_modifyCode _

theorem keeps_installCases (t : SwitchTable) (l : InstrList) (base : UInt32) (targets : List InstrId) (i : Nat) :
    Keeps patches (installCases t l base i targets) := by
  induction targets generalizing i with
  | nil => exact .pure _
  | cons target targets ih => exact (keeps_installCase t l base i target).bind fun _ => ih (i + 1)

theorem keeps_installSwitchTable (l : InstrList) (origin : BranchOrigin) (t : SwitchTable) :
    Keeps patches (installSwitchTable l origin t) := by
  refine (keeps_seek _ _).bind fun _ => .ite (.throw_bind _ _) ?_
  exact (Keeps.lift (t.origin l origin)).bind fun _ => (keeps_report _).bind fun _ => keeps_installCases t l _ _ 0

theorem keeps_installFillArray (f : FillArray) : Keeps patches (installFillArray f) :=
  (keeps_seek _ _).bind fun _ => (Keeps.lift (require _)).bind fun _ => keeps_modifyCode _

/-- An installation records the patches of all pointers, also if a switch table stops it. -/
theorem patches_installData {d : DataSections} {layout : DataLayout} (context : MethodContext) {l : InstrList}
    {origin : BranchOrigin} {m : Image} {stop : Nat} (hd : d.Installable l)
    (ha : Ascends m.code.size (d.placements layout (SwitchTable.image l origin)) stop) :
    (reached (installData d layout context 4 l origin m)).patches.toList = m.patches.toList ++ d.patches context := by
  rw [DataSections.placements] at ha
  obtain ⟨m', hliterals, hextends, -⟩ := installData_literals context hd ha
  have hrest : Keeps patches (installSwitchTables d.switchTables l origin >>= fun _ =>
      installFillArrays d.fillArrays >>= fun _ => seek .imageEnd layout.totalSize) :=
    (Keeps.forM (keeps_installSwitchTable l origin) _).bind fun _ =>
      (Keeps.forM keeps_installFillArray _).bind fun _ => keeps_seek _ _
  rw [hliterals, hrest m', hextends.patches]

end Image

/-! ### Steps on a unit -/

namespace MethodUnit

theorem keeps_report (events : List Event) : Keeps patches (report events) := .modify fun _ => rfl

theorem keeps_onList {α : Type} (step : ListM α) : Keeps patches (onList step) := by
  intro u
  simp only [onList]
  cases step u.list <;> rfl

theorem keeps_onPool {α : Type} (view : DataSections → LiteralPool) (put : LiteralPool → DataSections → DataSections)
    (step : LiteralPool → Checked (α × LiteralPool)) : Keeps patches (onPool view put step) :=
  .bind .get fun u => .bind (.lift (step (view u.data))) fun _ => .bind (.modify fun _ => rfl) fun _ => .pure _

theorem keeps_onWords {α : Type} (step : LiteralPool → Checked (α × LiteralPool)) : Keeps patches (onWords step) :=
  keeps_onPool _ _ _

theorem keeps_pushCall (i : Instruction) : Keeps patches (pushCall i) :=
  (keeps_onList _).bind fun _ => (keeps_onList _).bind fun _ => .pure _

end MethodUnit

open MethodUnit

theorem StreamItem.keeps_emit (tables : Nat) (anchors : Anchors) (item : StreamItem) :
    Keeps patches (item.emit tables anchors) := by
  have hpush : ∀ i, Keeps patches (push i >>= fun _ => pure anchors) := fun _ => .bind (keeps_onList _) fun _ => .pure _
  have hcall : ∀ i, Keeps patches (pushCall i >>= fun _ => pure anchors) :=
    fun i => (keeps_pushCall i).bind fun _ => .pure _
  cases item with
  | label dexPc =>
    have hlabel : Keeps patches (addBlockLabel dexPc) :=
      .bind (keeps_onList _) fun _ => .bind (.modify fun _ => rfl) fun _ => .pure _
    exact hlabel.bind fun _ => .pure _
  | op opcode dexPc operands nop =>
    exact .bind (keeps_onList _) fun _ => .ite (.bind (keeps_onList _) fun _ => .pure _) (.pure _)
  | call opcode dexPc operands => exact hcall _
  | invokeCode opcode dexPc target kind =>
    have hpointer : Keeps patches (codePointer target kind) := .bind .get fun _ => keeps_onPool _ _ _
    exact hpointer.bind fun _ => hcall _
  | invokeMethod opcode dexPc target kind =>
    have hpointer : Keeps patches (methodPointer target kind) := .bind .get fun _ => keeps_onPool _ _ _
    exact hpointer.bind fun _ => hcall _
  | loadWord opcode dexPc value =>
    have hword : Keeps patches (addWord value) := keeps_onWords _
    exact .bind .get fun _ => .ite (hword.bind fun _ => hpush _) (hpush _)
  | loadWide opcode dexPc low high =>
    have hfind : Keeps patches (findWide low high) := keeps_onWords _
    have hwide : Keeps patches (addWide low high) := keeps_onWords _
    exact hfind.bind fun _ => .ite (hwide.bind fun _ => hpush _) (hpush _)
  | switch opcode dexPc table =>
    exact .ite (.throw_bind _ _) (.bind (keeps_onList _) fun _ => .pure _)
  | exportPc dexPc => exact (keeps_onList _).bind fun _ => .pure _
  | align4 => exact hpush _

namespace Description

theorem keeps_emitStream (tables : Nat) (items : List StreamItem) (anchors : Anchors) :
    Keeps patches (emitStream tables items anchors) := by
  induction items generalizing anchors with
  | nil => exact .pure _
  | cons item items ih => exact (item.keeps_emit tables anchors).bind ih

theorem keeps_addSwitchTable (payload : SwitchPayload) (dexPc : UInt32) (anchor : Option InstrId) :
    Keeps patches (addSwitchTable payload dexPc anchor) := by
  refine .bind .get fun _ => .ite (.bind (.lift payload.listing) fun _ => .bind (keeps_report _) fun _ => ?_) ?_
  all_goals exact .bind .get fun _ => .bind (.modify fun _ => rfl) fun _ => .pure _

theorem keeps_addSwitches (anchors : Anchors) (switches : List SwitchDescription) (number : Nat) :
    Keeps patches (addSwitches anchors number switches) := by
  induction switches generalizing number with
  | nil => exact .pure _
  | cons s switches ih => exact (keeps_addSwitchTable s.payload s.dexPc _).bind fun _ => ih (number + 1)

theorem keeps_addFillArrays (fills : List FillDescription) : Keeps patches (addFillArrays fills) := by
  induction fills with
  | nil => exact .pure _
  | cons f fills ih =>
    have hadd : ∀ fill, Keeps patches (addFillArray fill) :=
      fun _ => .bind .get fun _ => .bind (.modify fun _ => rfl) fun _ => .pure _
    exact .bind (.lift _) fun fill => (hadd fill).bind fun _ => ih

theorem keeps_fill (d : Description) : Keeps patches d.fill := by
  have hcatch : ∀ dexPc, Keeps patches (addCatch dexPc) := fun _ => .modify fun _ => rfl
  have hcore : ∀ entry, Keeps patches (addCoreVmap entry) := fun _ => .modify fun _ => rfl
  have hfp : ∀ entry, Keeps patches (addFpVmap entry) := fun _ => .modify fun _ => rfl
  have hframe : Keeps patches (setFrame d.frame) := .bind (.lift _) fun _ => .modify fun _ => rfl
  refine (keeps_emitStream _ _ _).bind fun anchors => (keeps_addSwitches anchors _ 0).bind fun _ => ?_
  refine (keeps_addFillArrays _).bind fun _ => (Keeps.forM hcatch _).bind fun _ => ?_
  exact hframe.bind fun _ => (Keeps.forM hcore _).bind fun _ => .forM hfp _

end Description

namespace MethodUnit

theorem keeps_resolveCase (t : SwitchTable) (i : Nat) : Keeps patches (resolveCase t i) := by
  refine .bind (.lift (t.caseDexPc i)) fun dexPc => .bind .get fun u => ?_
  split
  · rename_i label _
    refine .ite ?_ (.pure _)
    refine .bind (.lift (u.list.node label)) fun _ => .ite (.throw_bind _ _) ?_
    exact .bind (.lift (t.payload.key i)) fun _ => .bind (keeps_onList _) fun _ => .bind (keeps_onList _) fun _ => .pure _
  · exact .throw _

theorem keeps_modifyTable (number : Nat) (f : SwitchTable → SwitchTable) : Keeps patches (modifyTable number f) :=
  .modify fun _ => rfl

theorem keeps_resolveCases (number : Nat) (t : SwitchTable) (left i : Nat) :
    Keeps patches (resolveCases number t left i) := by
  induction left generalizing i with
  | zero => exact .pure _
  | succ left ih => exact (keeps_resolveCase t i).bind fun _ => (keeps_modifyTable number _).bind fun _ => ih (i + 1)

theorem keeps_resolveTables (tables : List SwitchTable) (number : Nat) :
    Keeps patches (resolveTables number tables) := by
  induction tables generalizing number with
  | nil => exact .pure _
  | cons t tables ih =>
    exact (keeps_modifyTable number _).bind fun _ => (keeps_resolveCases _ _ _ _).bind fun _ => ih (number + 1)

theorem keeps_assignOffsets (encoder : Encoder) : Keeps patches (assignOffsets encoder) := by
  refine .bind (keeps_onList _) fun codeSize => .bind .get fun u => ?_
  refine .bind (.lift (u.data.assign codeSize u.pointerSize)) fun _ => ?_
  exact .bind (.modify fun _ => rfl) fun _ => .bind (keeps_report _) fun _ => .pure _

theorem keeps_createMappingTable : Keeps patches createMappingTable := by
  refine .bind .get fun u => .bind (.lift (MappingTable.create u.list)) fun _ => .bind (.modify fun _ => rfl) fun _ => ?_
  refine .bind (keeps_report _) fun _ => .bind .get fun u => .ite ?_ (.pure _)
  refine .bind (.lift (MappingTable.verify u.mappingTable u.list)) fun _ => ?_
  refine .bind (.lift (MappingTable.decode u.mappingTable)) fun _ => ?_
  exact .bind (.modify fun _ => rfl) fun _ => keeps_report _

theorem keeps_createReferenceMap (live : VerifierMap) : Keeps patches (createReferenceMap live) := by
  refine .bind .get fun u => .bind (.lift (ReferenceMap.create u.mappingTable live)) fun _ => ?_
  exact .bind (.modify fun _ => rfl) fun _ => keeps_report _

/-- What follows the installation of a unit leaves its patches. -/
theorem patches_complete (encoder : Encoder) (live : VerifierMap) (u : MethodUnit) :
    (reached (complete encoder live u)).patches = (reached (install encoder u)).patches := by
  refine Keeps.reached_bind (fun _ => ?_) u
  refine keeps_createMappingTable.bind fun _ => (keeps_createReferenceMap live).bind fun _ => .bind .get fun _ => ?_
  refine .ite (.bind .get fun u => .bind (.lift u.listing) fun _ => .bind (keeps_report _) fun _ => ?_) ?_
  all_goals exact .bind .get fun u => .bind (.lift u.compiled) fun _ => .bind (keeps_report _) fun _ => .pure _

theorem patches_onImage (code : Bytes) (step : ImageM Unit) (u : MethodUnit) :
    (reached (onImage code step u)).patches = (reached (step ⟨code, u.patches, u.events⟩)).patches := by
  rw [onImage]
  cases step ⟨code, u.patches, u.events⟩ <;> rfl

theorem patches_install {u : MethodUnit} {width : UInt32} {stop : Nat} (hd : u.data.Installable u.list)
    (ha : Ascends 0 (u.placements width) stop) :
    (reached (install (.fixedWidth width) u)).patches.toList = u.patches.toList ++ u.data.patches u.context := by
  have hcode : Ascends (FixedWidth.encode width u.list).size
      (u.data.placements u.layout (SwitchTable.image u.list u.config.branchOrigin)) stop := by
    rw [FixedWidth.encode_eq_putAll]
    exact Bytes.ascends_putAll ha
  have hinstalled : ∀ code, Keeps patches (modify fun u => { u with code } : UnitM Unit) := fun _ => .modify fun _ => rfl
  simp only [install, Stateful.get_bind_run, Encoder.fixedWidth, Stateful.lift_ok_bind_run, u.pointerSize_eq]
  rw [Keeps.reached_bind hinstalled, patches_onImage]
  exact Image.patches_installData u.context (m := ⟨_, u.patches, u.events⟩) hd hcode

end MethodUnit

/-! ### The whole -/

namespace Description
variable {d : Description} {config : Config} {l : Laid}

theorem keeps_prepare (d : Description) : Keeps patches d.prepare := by
  refine d.keeps_fill.bind fun _ => (Keeps.lift _).bind fun _ => (Keeps.lift _).bind fun _ => ?_
  refine Keeps.bind (Keeps.get.bind fun _ => keeps_resolveTables _ 0) fun _ => ?_
  exact (keeps_assignOffsets _).bind fun _ => .pure _

theorem Prepared.patches_install {u : MethodUnit} (h : d.Prepared config l u) :
    (reached (install (.fixedWidth 4) u)).patches = (l.data.patches d.context).toArray := by
  obtain ⟨u₀, hfilled, hplaced⟩ := h.placed
  obtain ⟨stop, hascends⟩ := hplaced.ascends
  rw [← Array.toList_inj, MethodUnit.patches_install hplaced.installable hascends, hplaced.same, hfilled.same]
  rfl

theorem compile_patches_eq (d : Description) (config : Config) :
    (d.compile config).patches = (reached (d.assemble (.new (d.configure config) d.context))).patches := by
  rw [compile]
  cases d.assemble (.new (d.configure config) d.context) <;> rfl

/-- A compilation that cannot lay out its method has recorded nothing. -/
theorem patches_of_lay_error {e : Fault} (h : d.lay (d.configure config) = .error e) :
    (d.compile config).patches = #[] := by
  have hfollows := d.prepare_follows (d.configure config)
  have hkeeps := d.keeps_prepare (.new (d.configure config) d.context)
  rw [compile_patches_eq, assemble_eq]
  cases hrun : d.prepare (.new (d.configure config) d.context) with
  | ok live u =>
    obtain ⟨l, hl, -⟩ := hfollows.ok hrun
    rw [h] at hl
    cases hl
  | error e' u =>
    rw [hrun] at hkeeps
    rw [bind_of_error hrun]
    exact hkeeps

/-- A compilation that has laid out its method records the patches of all pointers, however it ends. -/
theorem patches_of_lay (h : d.lay (d.configure config) = .ok l) :
    (d.compile config).patches = (l.data.patches d.context).toArray := by
  have hfollows := d.prepare_follows (d.configure config)
  rw [h] at hfollows
  obtain ⟨_, u, hrun, rfl, hprepared⟩ := hfollows.exists_ok
  rw [compile_patches_eq, assemble_eq, bind_of_ok hrun, patches_complete, hprepared.patches_install]

end Description

end MethodAssembler
