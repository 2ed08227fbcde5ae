import MethodAssembler.Proofs.Patches
import MethodAssembler.Proofs.RecordedPatches
import MethodAssembler.Proofs.ReferenceMap.Accepted

/-! # Failed compilations

A description is refused early, before anything is installed, or late, when the patches of its pointers have been
recorded (`Error.isLate`). A board keeps what it has then: a refusal that is not late leaves it as it was. -/

namespace MethodAssembler

/-- Whether an error is met behind the pointers of a method: a switch table that is installed has no dispatching
    instruction, or the map of its calls cannot be made. -/
def Error.isLate : Error → Bool
  | .missingSwitchAnchor _ | .missingReferenceBitmap _ | .limitExceeded .referenceEntries _ _ => true
  | _ => false

/-- A computation that refuses nothing for a reason that is met late. -/
abbrev Checked.Early {α : Type} (x : Checked α) : Prop := x.RefusesOnly fun e => e.isLate = false

/-- A computation that refuses nothing for a reason that is met early. -/
abbrev Checked.Late {α : Type} (x : Checked α) : Prop := x.RefusesOnly fun e => e.isLate = true

open Checked

-- what can only trap refuses nothing, so nothing but for reasons in any `P`
variable {P : Error → Prop}

/-! ### Streams -/

theorem InstrList.reserve_early (limit : Option Nat) (count : Nat) : Early (reserve limit count) := by
  cases limit with
  | none => exact .ok _
  | some limit => exact .ite (.refused rfl) (.ok _)

theorem InstrList.reserveAll_early (limit : Option Nat) (more count : Nat) : Early (reserveAll limit more count) := by
  induction more generalizing count with
  | zero => exact .ok _
  | succ more ih => exact (reserve_early limit count).bind ih

theorem LiteralPool.addWord_refuses (p : LiteralPool) (value : Int32) : RefusesOnly P (p.addWord value) :=
  (RefusesOnly.addWords _ _).bind fun _ => .ok _

theorem LiteralPool.addWide_refuses (p : LiteralPool) (low high : Int32) : RefusesOnly P (p.addWide low high) :=
  (p.addWord_refuses high).bind fun _ => addWord_refuses _ low

theorem LiteralPool.sharePointer_refuses (p : LiteralPool) (target : UInt32) (kind : InvokeKind) (size : UInt32) :
    RefusesOnly P (p.sharePointer target kind size) := by
  rw [sharePointer]
  split
  · exact .ok _
  · exact (RefusesOnly.addWords _ _).bind fun _ => .ok _

theorem StreamItem.enterData_early (tables : Nat) (data : DataSections) (item : StreamItem) :
    Early (item.enterData tables data) := by
  cases item with
  | invokeCode opcode dexPc target kind => exact (data.codePointers.sharePointer_refuses target kind 4).map
  | invokeMethod opcode dexPc target kind => exact (data.methodPointers.sharePointer_refuses target kind 4).map
  | loadWord opcode dexPc value => exact .ite (data.words.addWord_refuses value).map (.ok _)
  | loadWide opcode dexPc low high => exact .ite (LiteralPool.addWide_refuses _ low high).map (.ok _)
  | switch opcode dexPc table => exact .ite (.refused rfl) (.ok _)
  | label | op | call | exportPc | align4 => exact .ok _

theorem Draft.ofStream_early (limit : Option Nat) (tables : Nat) (items : List StreamItem) (s : Draft) :
    Early (ofStream limit tables items s) := by
  refine .foldlM (fun s item => ?_) items s
  exact (item.enterData_early tables s.data).bind fun _ => (InstrList.reserveAll_early _ _ _).bind fun _ => .ok _

/-! ### Parts of a description -/

theorem requireUnits_early (units : Array UInt16) (needed : Nat) : Early (requireUnits units needed) :=
  .ite (.refused rfl) (.ok _)

theorem FillArray.ofElements_early (width : UInt16) (data : List UInt8) (dexPc : UInt32) :
    Early (ofElements width data dexPc) := by
  refine (requireUnits_early _ _).bind fun _ => (RefusesOnly.present _).bind fun _ => .ite (.refused rfl) ?_
  refine (RefusesOnly.present _).bind fun _ => (RefusesOnly.present _).bind fun _ =>
    (RefusesOnly.present _).bind fun _ => ?_
  exact .ite (.refused rfl) ((requireUnits_early _ _).bind fun _ => .ok _)

theorem Frame.size_early (f : Frame) : Early f.size := by
  refine ((RefusesOnly.addWords _ _).bind fun _ => .addWords _ _).bind fun _ => ?_
  split
  · exact .alignUp _ _
  · exact .refused rfl

theorem Description.filling_early (limit : Option Nat) (d : Description) : Early (d.filling limit) := by
  refine (Draft.ofStream_early _ _ _ _).bind fun _ => ?_
  refine (RefusesOnly.mapM fun f _ => FillArray.ofElements_early f.elementWidth f.data f.dexPc).bind fun _ => ?_
  exact d.frame.size_early.bind fun _ => .ok _

namespace VerifierMap

theorem Builder.setReference_early (b : Builder) (dexPc : UInt32) (register : Nat) :
    Early (b.setReference dexPc register) :=
  .ite (.refused rfl) (.ok _)

theorem Builder.build_early (b : Builder) : Early b.build := by
  refine RefusesOnly.bind ?_ fun _ => .ok _
  exact .ite (.refused rfl) (.ite (.refused rfl) (.ite (.refused rfl) (.ok _)))

theorem ofBytes_early (data : Bytes) : Early (ofBytes data) := by
  refine .ite (.refused rfl) ?_
  split
  · exact .ite (.refused rfl) (.ok _)
  · exact .refused rfl

end VerifierMap

theorem Description.addReferences_early (sets : List ReferenceSet) (b : VerifierMap.Builder) :
    Early (addReferences sets b) := by
  induction sets generalizing b with
  | nil => exact .ok _
  | cons set sets ih => exact (RefusesOnly.foldlM (fun b r => b.setReference_early set.dexPc r) _ _).bind ih

theorem Description.liveness_early (d : Description) : Early d.liveness :=
  RefusesOnly.bind ((addReferences_early _ _).bind VerifierMap.Builder.build_early) VerifierMap.ofBytes_early

/-! ### Switch cases -/

theorem wordAt_refuses (units : Array UInt16) (place : Nat) : RefusesOnly P (wordAt units place) :=
  (RefusesOnly.present _).bind fun _ => (RefusesOnly.present _).bind fun _ => .ok _

theorem SwitchTable.caseDexPc_refuses (t : SwitchTable) (i : Nat) : RefusesOnly P (t.caseDexPc i) := by
  refine RefusesOnly.bind ?_ fun _ => .ok _
  rw [SwitchPayload.relativeTarget]
  cases t.payload.kind <;> exact wordAt_refuses _ _

namespace Labelling

theorem caseTarget_early (g : Labelling) (t : SwitchTable) (i : Nat) : Early (g.caseTarget t i) := by
  refine (t.caseDexPc_refuses i).bind fun dexPc => ?_
  split
  · exact .refused rfl
  · exact .ite (.refused rfl) (.ok _)

theorem caseTargets_early (g : Labelling) (t : SwitchTable) (left i count : Nat) :
    Early (g.caseTargets t left i count) := by
  induction left generalizing i count with
  | zero => exact .ok _
  | succ left ih =>
    have hreserve : Early (g.reserveCase count) := .ite (InstrList.reserve_early _ _) (.ok _)
    exact (g.caseTarget_early t i).bind fun _ => hreserve.bind fun _ => (ih _ _).bind fun _ => .ok _

theorem tableTargets_early (g : Labelling) (tables : List SwitchTable) (count : Nat) :
    Early (g.tableTargets tables count) := by
  induction tables generalizing count with
  | nil => exact .ok _
  | cons t tables ih => exact (g.caseTargets_early t _ _ _).bind fun _ => (ih _).bind fun _ => .ok _

end Labelling

/-! ### Layout -/

theorem FixedWidth.place_refuses (width reached : UInt32) (i : Instruction) : RefusesOnly P (place width reached i) := by
  refine .ite (.bind (.alignUp _ _) fun _ => ?_) ?_
  all_goals exact .ite (.bind (.addWords _ _) fun _ => .ok _) (.ok _)

theorem FixedWidth.layOut_refuses (width : UInt32) (entries : List (InstrId × Instruction)) (reached : UInt32) :
    RefusesOnly P (layOut width entries reached) := by
  induction entries generalizing reached with
  | nil => exact .ok _
  | cons e entries ih => exact (place_refuses width reached e.2).bind fun _ => (ih _).bind fun _ => .ok _

theorem arrange_refuses {α : Type} {next : α → UInt32 → Checked UInt32} {put : α → UInt32 → α}
    (hnext : ∀ x offset, RefusesOnly P (next x offset)) (xs : List α) (offset : UInt32) :
    RefusesOnly P (arrange next put xs offset) := by
  induction xs generalizing offset with
  | nil => exact .ok _
  | cons x xs ih => exact (hnext x offset).bind fun _ => (ih _).bind fun _ => .ok _

theorem DataSections.assign_refuses (s : DataSections) (codeSize pointerSize : UInt32) :
    RefusesOnly P (s.assign codeSize pointerSize) := by
  have hspread : ∀ step literals offset, RefusesOnly P (LiteralPool.spread step literals offset) := by
    intro step literals offset
    rw [LiteralPool.spread_eq_arrange]
    exact arrange_refuses (fun _ _ => .addWords _ _) literals offset
  have hpointers : ∀ (p : LiteralPool) offset, RefusesOnly P (p.assignPointers offset pointerSize) :=
    fun p offset => (RefusesOnly.alignUp _ _).bind fun _ => (hspread _ _ _).bind fun _ => .ok _
  have htables : ∀ offset, RefusesOnly P (assignSwitchTables s.switchTables offset) := by
    intro offset
    rw [assignSwitchTables_eq_arrange]
    exact arrange_refuses (fun _ _ => .addWords _ _) s.switchTables offset
  have hfills : ∀ offset, RefusesOnly P (assignFillArrays s.fillArrays offset) := by
    intro offset
    rw [assignFillArrays_eq_arrange]
    exact arrange_refuses (fun _ _ => .bind (.addWords _ _) fun _ => .alignUp _ _) s.fillArrays offset
  refine (RefusesOnly.alignUp _ _).bind fun _ => ((hspread _ _ _).bind fun _ => .ok _).bind fun _ => ?_
  refine (hpointers s.codePointers _).bind fun _ => (hpointers s.methodPointers _).bind fun _ => ?_
  exact (htables _).bind fun _ => (hfills _).bind fun _ => .ok _

/-- A method that cannot be laid out is refused early. -/
theorem Description.lay_early (d : Description) (config : Config) : Early (d.lay config) := by
  refine (d.filling_early _).bind fun filling => d.liveness_early.bind fun live => ?_
  refine (Labelling.tableTargets_early _ _ _).bind fun _ => RefusesOnly.bind ?_ fun _ => .ok _
  exact (FixedWidth.layOut_refuses _ _ _).bind fun _ => (DataSections.assign_refuses _ _ _).bind fun _ => .ok _

/-! ### Image and tables -/

theorem SwitchTable.origin_late (t : SwitchTable) (l : InstrList) (origin : BranchOrigin) : Late (t.origin l origin) := by
  have hanchor : Late (t.anchorInstr l) := by
    rw [anchorInstr]
    split
    · exact (RefusesOnly.present _).map
    · exact .refused rfl
  cases origin with
  | anchorPlusAdvance advance => exact hanchor.bind fun _ => (RefusesOnly.require _).bind fun _ => .addWords _ _
  | anchor => exact hanchor.bind fun _ => .ok _
  | tableStart | methodStart => exact .ok _

theorem checkOrigins_late (l : InstrList) (origin : BranchOrigin) (tables : List SwitchTable) :
    Late (checkOrigins l origin tables) := by
  induction tables with
  | nil => exact .ok _
  | cons t tables ih => exact (t.origin_late l origin).map.bind fun _ => ih

theorem ReferenceMap.create_late {live : VerifierMap} (hlive : live.Sized) {mapping : Bytes} {table : MappingTable}
    (htable : MappingTable.decode mapping = .ok table) : Late (create mapping live) := by
  intro e he
  have houtcome := create_outcome hlive.knows live.bitmapWidth_lt mapping
  rw [he] at houtcome
  cases houtcome with
  | malformed hdecode =>
    rw [htable] at hdecode
    cases hdecode
  | crowded | unknown => rfl

namespace Laid
variable {d : Description} {config : Config} {l : Laid}

theorem Of.sized (h : l.Of d config) : l.live.Sized := by
  obtain ⟨data, -, hlive⟩ := Checked.bind_eq_ok.mp h.live
  exact VerifierMap.sized_of_ofBytes hlive

/-- A method that is laid out can be refused only late. -/
theorem Of.finish_late (h : l.Of d config) : Late (l.finish d config) := by
  have hordered : ∀ kind, MappingTable.Ordered ⟨0, 0⟩ (MappingTable.entriesOf kind (markersOf l.stamped)) :=
    fun kind => MappingTable.ordered_markersOf h.records (Nat.le_refl _) kind
  refine (checkOrigins_late _ _ _).bind fun _ =>
    (MappingTable.encode_refuses hordered).bind_known fun mapping hmapping => ?_
  refine (ReferenceMap.create_late h.sized (MappingTable.decode_encode hmapping)).bind fun references => ?_
  refine RefusesOnly.bind ?_ fun _ => .ok _
  exact (RefusesOnly.require _).bind fun _ => (RefusesOnly.require _).bind fun _ => .ok _

end Laid

/-! ### The whole -/

namespace Description
variable {d : Description} {config : Config} {b : PatchBoard} {e : Error}

/-- What a failed compilation leaves on a board. Patches are on it only if the error is met late; then all patches of the
    method are. -/
theorem compileOn_of_refused (h : (d.compileOn config b).1.outcome = .error (.refused e)) :
    if e.isLate then ∃ added, d.PatchedBy added ∧ (d.compileOn config b).2.shared = b.shared ++ added
    else (d.compileOn config b).2.shared = b.shared := by
  have hboard := d.compileOn_board config b
  have houtcome : (d.compile config).outcome = .error (.refused e) := h
  rw [compile_outcome, outline] at houtcome
  rcases Checked.bind_eq_error.mp houtcome with hlay | ⟨l, hlay, hfinish⟩
  · rw [if_neg (by rw [d.lay_early _ e hlay]; exact Bool.false_ne_true), hboard, patches_of_lay_error hlay]
    exact Array.append_empty
  · have hl := of_lay hlay
    rw [if_pos (hl.finish_late e hfinish), hboard, patches_of_lay hlay]
    exact ⟨_, hl.literals.patchedBy, rfl⟩

/-- A call with no references stated for it. -/
def unlistedCall : Description where
  name := "unlisted"
  instructions := [.invokeCode 1 0 7 .direct]

/-- The pointer of the call has been installed when its source PC is looked up, so its patch stays on the board. -/
theorem compileOn_unlistedCall :
    (unlistedCall.compileOn {} {}).1.outcome = .error (.refused (.missingReferenceBitmap 0)) ∧
      (unlistedCall.compileOn {} {}).2.shared = #[⟨.code, {}, 7, .direct, 4⟩] ∧
      (unlistedCall.compileOn {} {}).2.shared ≠ ({} : PatchBoard).shared := by
  decide +kernel

/-- A call, and a dispatch through a table that there is not. -/
def danglingSwitch : Description where
  name := "dangling"
  instructions := [.invokeCode 1 0 7 .direct, .switch 0x2b 1 0]

theorem compileOn_of_refused_sample :
    (∃ added, unlistedCall.PatchedBy added ∧
      (unlistedCall.compileOn {} .sample).2.shared = PatchBoard.sample.shared ++ added) ∧
    (danglingSwitch.compileOn {} .sample).2.shared = PatchBoard.sample.shared := by
  have hlate : (unlistedCall.compileOn {} .sample).1.outcome = .error (.refused (.missingReferenceBitmap 0)) := by
    decide +kernel
  have hearly : (danglingSwitch.compileOn {} .sample).1.outcome =
      .error (.refused (.malformed (.switchTableIndex 1 0))) := by
    decide +kernel
  exact ⟨compileOn_of_refused hlate, compileOn_of_refused hearly⟩

end Description

end MethodAssembler
