import MethodAssembler.Proofs.LiteralImage

/-! # Patches

The patches of a compiled method tell the linker exactly what its image leaves open: one for each pointer of the stream,
at the literal that holds the index of its target. What goes on a board for the method is this record, in this order. -/

namespace MethodAssembler

/-! ### Boards -/

namespace PatchBoard

theorem add_last (shared r : PatchRecord) (own : Array PatchRecord) (p : Patch) :
    (⟨shared, own.push r⟩ : PatchBoard).add own.size p = ⟨shared.push p, own.push (r.push p)⟩ := by
  have hown : (own.push r).modify own.size (·.push p) = own.push (r.push p) := by
    refine Array.ext (by simp) fun i hi _ => ?_
    rw [Array.getElem_modify]
    rcases Nat.lt_or_ge i own.size with hlt | hge
    · simp [Array.getElem_push, hlt, Nat.ne_of_gt hlt]
    · obtain rfl : i = own.size := by
        simp at hi
        omega
      simp
  rw [add, hown]

theorem foldl_add (shared r : PatchRecord) (own : Array PatchRecord) (ps : List Patch) :
    ps.foldl (·.add own.size) (⟨shared, own.push r⟩ : PatchBoard) = ⟨shared ++ ps, own.push (r ++ ps)⟩ := by
  induction ps generalizing shared r with
  | nil => simp
  | cons p ps ih => rw [List.foldl_cons, add_last, ih]; simp

end PatchBoard

/-- A compilation puts the patches that it recorded on a board, and leaves what is there. -/
theorem Description.compileOn_board (d : Description) (config : Config) (b : PatchBoard) :
    (d.compileOn config b).2 =
      { shared := b.shared ++ (d.compile config).patches, own := b.own.push (d.compile config).patches } := by
  rw [compileOn, PatchBoard.addMethod, ← Array.foldl_toList, PatchBoard.foldl_add]
  have happend : ∀ xs ys : PatchRecord, xs ++ ys.toList = xs ++ ys := fun xs ys => Array.toList_inj.mp (by simp)
  rw [happend, happend, Array.empty_append]

/-! ### Pointers of a stream -/

/-- The pointer that an instruction invokes through: its pool, its target and the kind of invocation. -/
def StreamItem.pointer? : StreamItem → Option (PatchKind × UInt32 × InvokeKind)
  | .invokeCode _ _ target kind => some (.code, target, kind)
  | .invokeMethod _ _ target kind => some (.method, target, kind)
  | _ => none

/-- The pointer that a patch is for. -/
def Patch.pointer (p : Patch) : PatchKind × UInt32 × InvokeKind := (p.kind, p.targetIndex, p.targetKind)

/-- Patches for a method: one for each pointer of its stream, in its context, and all at places of their own behind the
    code. -/
structure Description.PatchedBy (d : Description) (patches : PatchRecord) : Prop where
  once : (patches.toList.map Patch.pointer).Nodup
  pointers : ∀ pointer, pointer ∈ patches.toList.map Patch.pointer ↔ ∃ item ∈ d.instructions, item.pointer? = some pointer
  context : ∀ p ∈ patches, p.context = d.context
  apart : (patches.toList.map (·.literalOffset)).Nodup
  aligned : ∀ p ∈ patches, 4 ∣ p.literalOffset.toNat
  behind : ∀ p ∈ patches, 4 * machineCount d.instructions ≤ p.literalOffset.toNat

/-! ### Patches of a pool -/

section Pool
variable {p : LiteralPool} {targets : List (UInt32 × InvokeKind)} {kind : PatchKind}
  {context : MethodContext} {patch : Patch}

theorem mem_patchFor {lit : Literal} (h : patch ∈ Image.patchFor kind context lit) : patch.context = context ∧
    patch.targetIndex = lit.value.toUInt32 ∧ patch.literalOffset = lit.offset := by
  obtain ⟨targetKind, -, rfl⟩ := List.mem_map.mp h
  exact ⟨rfl, rfl, rfl⟩

/-- What the patch for a stored pointer names. -/
def namedBy (kind : PatchKind) (stored : Int32 × Int32) : List (PatchKind × UInt32 × InvokeKind) :=
  (InvokeKind.ofOperand? stored.2).toList.map fun targetKind => (kind, stored.1.toUInt32, targetKind)

theorem namedBy_stored (kind : PatchKind) (t : UInt32 × InvokeKind) :
    namedBy kind (LiteralPool.stored t) = [(kind, t)] := by
  rw [namedBy, LiteralPool.stored, InvokeKind.ofOperand?_toOperand]
  rfl

/-- The patches of a pool name the pointers in it, each once. -/
theorem LiteralPool.Points.patched (h : p.Points targets) (kind : PatchKind) (context : MethodContext) :
    ∃ distinct : List (UInt32 × InvokeKind), distinct.Nodup ∧ (∀ t, t ∈ distinct ↔ t ∈ targets) ∧
      (p.literals.flatMap (Image.patchFor kind context)).map Patch.pointer = distinct.map (Prod.mk kind) := by
  obtain ⟨distinct, hnodup, hmem, hliterals⟩ := h
  refine ⟨distinct, hnodup, hmem, ?_⟩
  calc (p.literals.flatMap (Image.patchFor kind context)).map Patch.pointer
    _ = p.literals.flatMap fun lit => namedBy kind (lit.value, lit.tag) := by
      rw [List.map_flatMap]
      simp [Image.patchFor, namedBy, Patch.pointer, Function.comp_def]
    _ = (distinct.map stored).flatMap (namedBy kind) := by rw [← hliterals, List.flatMap_map]
    _ = distinct.map (Prod.mk kind) := by
      rw [List.flatMap_map]
      simp only [namedBy_stored]
      exact List.map_eq_flatMap.symm

theorem offsets_flatMap_patchFor (h : ∀ lit ∈ p.literals, (InvokeKind.ofOperand? lit.tag).isSome = true) :
    (p.literals.flatMap (Image.patchFor kind context)).map (·.literalOffset) = p.literals.map (·.offset) := by
  generalize p.literals = literals at h ⊢
  induction literals with
  | nil => rfl
  | cons lit literals ih =>
    obtain ⟨targetKind, hk⟩ := Option.isSome_iff_exists.mp (h lit List.mem_cons_self)
    rw [List.flatMap_cons, List.map_append, ih fun lit hlit => h lit (List.mem_cons_of_mem _ hlit), Image.patchFor, hk]
    rfl

end Pool

/-! ### Patches of a method -/

theorem mem_patches {data : DataSections} {context : MethodContext} {patch : Patch} (h : patch ∈ data.patches context) :
    patch.context = context ∧ ∃ lit ∈ data.codePointers.literals ++ data.methodPointers.literals,
      patch.targetIndex = lit.value.toUInt32 ∧ patch.literalOffset = lit.offset := by
  obtain ⟨kind, lit, hlit, hpatch⟩ : ∃ kind, ∃ lit ∈ data.codePointers.literals ++ data.methodPointers.literals,
      patch ∈ Image.patchFor kind context lit := by
    rcases List.mem_append.mp h with h | h
    · obtain ⟨lit, hlit, hpatch⟩ := List.mem_flatMap.mp h
      exact ⟨.code, lit, List.mem_append_left _ hlit, hpatch⟩
    · obtain ⟨lit, hlit, hpatch⟩ := List.mem_flatMap.mp h
      exact ⟨.method, lit, List.mem_append_right _ hlit, hpatch⟩
  obtain ⟨hcontext, htarget, hoffset⟩ := mem_patchFor hpatch
  exact ⟨hcontext, lit, hlit, htarget, hoffset⟩

theorem mem_codeTargets {items : List StreamItem} {t : UInt32 × InvokeKind} :
    t ∈ items.filterMap StreamItem.codeTarget? ↔ ∃ item ∈ items, item.pointer? = some (.code, t) := by
  rw [List.mem_filterMap]
  refine exists_congr fun item => and_congr_right fun _ => ?_
  cases item <;> simp [StreamItem.codeTarget?, StreamItem.pointer?]

theorem mem_methodTargets {items : List StreamItem} {t : UInt32 × InvokeKind} :
    t ∈ items.filterMap StreamItem.methodTarget? ↔ ∃ item ∈ items, item.pointer? = some (.method, t) := by
  rw [List.mem_filterMap]
  refine exists_congr fun item => and_congr_right fun _ => ?_
  cases item <;> simp [StreamItem.methodTarget?, StreamItem.pointer?]

variable {d : Description} {config : Config} {l : Laid} {out : MethodOutput} {b : PatchBoard}

namespace Laid.Literals

/-- The pointers that the patches of a method are for: those of the two pools, each once. -/
theorem names_patches (h : l.Literals d) : ∃ codes methods : List (UInt32 × InvokeKind), codes.Nodup ∧ methods.Nodup ∧
    (∀ t, t ∈ codes ↔ ∃ item ∈ d.instructions, item.pointer? = some (.code, t)) ∧
    (∀ t, t ∈ methods ↔ ∃ item ∈ d.instructions, item.pointer? = some (.method, t)) ∧
    (l.data.patches d.context).map Patch.pointer = codes.map (Prod.mk .code) ++ methods.map (Prod.mk .method) := by
  obtain ⟨codes, hcodes, hmemCodes, hcodeNames⟩ := h.codePointers.patched .code d.context
  obtain ⟨methods, hmethods, hmemMethods, hmethodNames⟩ := h.methodPointers.patched .method d.context
  refine ⟨codes, methods, hcodes, hmethods, fun t => (hmemCodes t).trans mem_codeTargets,
    fun t => (hmemMethods t).trans mem_methodTargets, ?_⟩
  rw [DataSections.patches, List.map_append, hcodeNames, hmethodNames]

/-- Patches stand four bytes apart behind the word literals. -/
theorem offsets_patches (h : l.Literals d) : (l.data.patches d.context).map (·.literalOffset.toNat) =
    List.range' (4 * machineCount d.instructions + 4 * d.wordLiterals.length)
      (l.data.codePointers.size + l.data.methodPointers.size) 4 := by
  have hplain : (l.data.patches d.context).map (·.literalOffset) =
      (l.data.codePointers.literals ++ l.data.methodPointers.literals).map (·.offset) := by
    rw [DataSections.patches, List.map_append, List.map_append, offsets_flatMap_patchFor h.codePointers.tagged,
      offsets_flatMap_patchFor h.methodPointers.tagged]
  have hnumbers := congrArg (List.map UInt32.toNat) hplain
  rw [List.map_map, List.map_map] at hnumbers
  exact hnumbers.trans h.pointerOffsets

theorem patchedBy (h : l.Literals d) : d.PatchedBy (l.data.patches d.context).toArray := by
  obtain ⟨codes, methods, hcodes, hmethods, hmemCodes, hmemMethods, hnames⟩ := h.names_patches
  -- The places are those of a range, which has its numbers apart, aligned and behind its start.
  have hplaces : ∀ p ∈ (l.data.patches d.context).toArray, ∃ k,
      p.literalOffset.toNat = 4 * machineCount d.instructions + 4 * d.wordLiterals.length + 4 * k := by
    intro p hp
    have hmem := List.mem_map_of_mem (f := (·.literalOffset.toNat)) (List.mem_toArray.mp hp)
    rw [h.offsets_patches, List.mem_range'] at hmem
    obtain ⟨k, -, hk⟩ := hmem
    exact ⟨k, hk⟩
  constructor
  case once =>
    rw [hnames, List.nodup_append]
    refine ⟨hcodes.map (Prod.mk_right_injective _), hmethods.map (Prod.mk_right_injective _), ?_⟩
    intro a ha b hb heq
    obtain ⟨_, -, rfl⟩ := List.mem_map.mp ha
    obtain ⟨_, -, rfl⟩ := List.mem_map.mp hb
    cases heq
  case pointers =>
    rintro ⟨kind, t⟩
    rw [hnames, List.mem_append]
    cases kind with
    | code => simp [← hmemCodes]
    | method => simp [← hmemMethods]
  case context => exact fun p hp => (mem_patches (List.mem_toArray.mp hp)).1
  case apart =>
    refine List.Nodup.of_map UInt32.toNat ?_
    rw [List.map_map]
    exact h.offsets_patches ▸ List.nodup_range' 4
  case aligned =>
    intro p hp
    obtain ⟨k, hk⟩ := hplaces p hp
    omega
  case behind =>
    intro p hp
    obtain ⟨k, hk⟩ := hplaces p hp
    omega

end Laid.Literals

theorem Description.patches_of_outcome (h : (d.compile config).outcome = .ok out) :
    (d.compile config).patches = out.patches := by
  cases hrun : d.assemble (.new (d.configure config) d.context) with
  | error e u => simp [compile, hrun] at h
  | ok method u =>
    simp only [compile, hrun, Except.ok.injEq] at h ⊢
    rw [← h]

/-- The patches of a compiled method describe its image: one for each pointer of the stream, in the context of the
    method, at aligned places apart from each other behind the code, where the image holds the index of the target. They
    are what the compilation puts on a board. -/
theorem Description.compileOn_patches (h : (d.compileOn config b).1.outcome = .ok out) :
    d.PatchedBy out.patches ∧
      (∀ p ∈ out.patches, p.literalOffset.toNat + 4 ≤ out.method.code.size ∧
        out.method.code.word p.literalOffset.toNat = .ok p.targetIndex) ∧
      (d.compileOn config b).2 = { shared := b.shared ++ out.patches, own := b.own.push out.patches } := by
  have hout : (d.compile config).outcome = .ok out := h
  have hboard := d.compileOn_board config b
  rw [patches_of_outcome hout] at hboard
  rw [compile_outcome] at hout
  obtain ⟨l, hl, hfinish⟩ := of_outline hout
  have hf := Laid.finished_of_finish hfinish
  refine ⟨hf.patches ▸ hl.literals.patchedBy, fun p hp => ?_, hboard⟩
  rw [hf.patches, List.mem_toArray] at hp
  obtain ⟨-, lit, hlit, htarget, hoffset⟩ := mem_patches hp
  have hstands := hf.standsAt_literal hl (List.mem_append_right _ hlit)
  rw [hoffset, htarget]
  refine ⟨?_, Bytes.word_of_standsAt hstands⟩
  simpa using hstands.stop_le (by simp)

/-- A board with a patch of another method. -/
def PatchBoard.sample : PatchBoard := { shared := #[⟨.code, {}, 1, .static, 8⟩] }

/-- Calls through four pointers, one of which is met twice. -/
def Description.patchSample : Description where
  name := "patched"
  context := { methodIndex := 3 }
  instructions := [.invokeCode 0x30 0 7 .direct, .loadWord 0x40 1 9, .invokeMethod 0x31 2 7 .direct,
    .invokeCode 0x30 2 7 .direct, .invokeCode 0x30 2 8 .static, .invokeCode 0x30 2 7 .static]
  references := [⟨0, []⟩, ⟨2, []⟩]

/-- The pointer that is met twice has one patch, behind what another method left on the board. -/
theorem Description.compileOn_patches_sample :
    ∃ out, (patchSample.compileOn {} .sample).1.outcome = .ok out ∧ patchSample.PatchedBy out.patches ∧
      (out.patches.toList.map Patch.pointer).count (.code, 7, .direct) = 1 ∧
      (∀ p ∈ out.patches, out.method.code.word p.literalOffset.toNat = .ok p.targetIndex) ∧
      (patchSample.compileOn {} .sample).2.shared = PatchBoard.sample.shared ++ out.patches := by
  obtain ⟨out, hout⟩ : ∃ out, (patchSample.compileOn {} .sample).1.outcome = .ok out :=
    Checked.exists_of_isOk (by decide +kernel)
  obtain ⟨hpatched, hwords, hboard⟩ := compileOn_patches hout
  have hmem : (.code, 7, .direct) ∈ out.patches.toList.map Patch.pointer :=
    (hpatched.pointers _).mpr ⟨.invokeCode 0x30 0 7 .direct, by decide, rfl⟩
  exact ⟨out, hout, hpatched, List.count_eq_one_of_mem hpatched.once hmem, fun p hp => (hwords p hp).2, by rw [hboard]⟩

end MethodAssembler
