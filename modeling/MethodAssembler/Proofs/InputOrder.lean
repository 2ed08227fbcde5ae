import MethodAssembler.Proofs.Outline
import MethodAssembler.Proofs.ReferenceMap.Verifier
import MethodAssembler.Proofs.SortedWords

/-! # The order of unordered inputs

Reference sets, the registers in them, handlers and core registers have no order of their own. A verifier map is told by
the source PCs and registers that were entered, the handlers form a set and the core registers are sorted, so
descriptions that differ in the order of these alone have one outline. They may be refused for different reasons: the
first register that the method does not have is the one that is named. -/

namespace MethodAssembler

/-! ### Verifier maps -/

namespace VerifierMap.Builder
variable {declared : UInt32 → Prop} {referred : UInt32 → Nat → Prop} {registers : Nat} {b b' : Builder}

/-- The entries of the map that is built: source PCs with their bitmaps. -/
def rows (b : Builder) : List (UInt32 × Bytes) := b.entries.map fun e => (e.1, bitmapOf b.bitmapWidth e.2)

theorem pairwise_rows (hd : Descending b.entries) : b.rows.Pairwise fun x y => y.1 < x.1 :=
  List.pairwise_map.mpr hd

theorem nodup_rows (h : b.rows.Pairwise fun x y => y.1 < x.1) : b.rows.Nodup := by
  refine h.imp ?_
  rintro x y hlt rfl
  exact UInt32.lt_irrefl _ hlt

theorem build_of_rows (hw : b.bitmapWidth = b'.bitmapWidth) (h : b.rows = b'.rows) : b.build = b'.build := by
  have hlength : b.entries.length = b'.entries.length := by
    simpa [rows] using congrArg List.length h
  have hhighest : b.highest = b'.highest := by
    have hhead := congrArg (fun rows => (rows.head?.map (·.1.toNat)).getD 0) h
    simpa [rows, highest, Function.comp_def] using hhead
  have hbytes (format : PcFormat) : (b.entries.reverse.flatMap fun e => b.entryBytes format e.1 e.2) =
      b'.entries.reverse.flatMap fun e => b'.entryBytes format e.1 e.2 := by
    have hflat := congrArg
      (·.reverse.flatMap fun row => littleEndian format.pcWidth row.1.toNat ++ row.2.toList) h
    simpa only [rows, entryBytes, ← List.map_reverse, List.flatMap_map] using hflat
  have hformat : b.format = b'.format := by simp only [format, hw, hlength, hhighest]
  simp only [build, hformat, table, header, hw, hlength, hbytes]

/-- A row stands in every builder with the same entries. -/
theorem mem_rows_of_enters (hb : Enters declared referred { registers } b) (hb' : Enters declared referred { registers } b')
    (hlisted : ∀ pc r, referred pc r → r < registers) {row : UInt32 × Bytes} (h : row ∈ b.rows) : row ∈ b'.rows := by
  obtain ⟨⟨pc, rs⟩, he, rfl⟩ := List.mem_map.mp h
  obtain ⟨rs', he'⟩ := (hb'.declares pc).mpr ((hb.declares pc).mp ⟨rs, he⟩)
  have hmem (r : Nat) : r ∈ rs ↔ r ∈ rs' :=
    calc r ∈ rs
      _ ↔ Refers b.entries pc r := ((hb.descending .nil).refers_iff he).symm
      _ ↔ Refers b'.entries pc r := (hb.refers pc r).trans (hb'.refers pc r).symm
      _ ↔ r ∈ rs' := (hb'.descending .nil).refers_iff he'
  have hwidth : ∀ r ∈ rs, r / 8 < b.bitmapWidth := by
    intro r hr
    have hlt : r < registers := by
      refine hlisted pc r (((hb.refers pc r).mp ⟨rs, he, hr⟩).resolve_right ?_)
      simp [Refers]
    rw [bitmapWidth, show b.registers = registers from hb.registers]
    omega
  refine List.mem_map.mpr ⟨(pc, rs'), he', ?_⟩
  rw [bitmapOf_congr hwidth hmem, bitmapWidth, bitmapWidth, hb.registers, hb'.registers]

/-- What was entered tells the map. -/
theorem build_of_enters (hb : Enters declared referred { registers } b) (hb' : Enters declared referred { registers } b')
    (hlisted : ∀ pc r, referred pc r → r < registers) : b.build = b'.build := by
  have hrows := pairwise_rows (hb.descending .nil)
  have hrows' := pairwise_rows (hb'.descending .nil)
  have hperm : b.rows.Perm b'.rows :=
    (List.perm_ext_iff_of_nodup (nodup_rows hrows) (nodup_rows hrows')).mpr fun _ =>
      ⟨mem_rows_of_enters hb hb' hlisted, mem_rows_of_enters hb' hb hlisted⟩
  refine build_of_rows (by rw [bitmapWidth, bitmapWidth, hb.registers, hb'.registers]) ?_
  exact hperm.eq_of_pairwise (fun _ _ _ _ hlt hgt => absurd hgt (UInt32.lt_asymm hlt)) hrows hrows'

end VerifierMap.Builder

/-! ### Reference sets -/

namespace ReferenceSet
variable {sets sets' : List ReferenceSet}

/-- The same reference sets, permuted, and with the registers of each permuted. -/
def Reordered (sets sets' : List ReferenceSet) : Prop :=
  ∃ middle, sets.Perm middle ∧
    List.Forall₂ (fun s s' => s.dexPc = s'.dexPc ∧ s.registers.Perm s'.registers) middle sets'

/-- Every set says something that the other sets say, too. -/
def Covered (sets sets' : List ReferenceSet) : Prop :=
  ∀ s ∈ sets, ∃ s' ∈ sets', s.dexPc = s'.dexPc ∧ ∀ r, r ∈ s.registers ↔ r ∈ s'.registers

theorem Covered.declared (h : Covered sets sets') {pc : UInt32} (hpc : ∃ set ∈ sets, set.dexPc = pc) :
    ∃ set ∈ sets', set.dexPc = pc := by
  obtain ⟨set, hset, rfl⟩ := hpc
  obtain ⟨other, hother, hpc, -⟩ := h set hset
  exact ⟨other, hother, hpc.symm⟩

theorem Covered.referred (h : Covered sets sets') {pc : UInt32} {r : Nat}
    (hr : ∃ set ∈ sets, set.dexPc = pc ∧ r ∈ set.registers) : ∃ set ∈ sets', set.dexPc = pc ∧ r ∈ set.registers := by
  obtain ⟨set, hset, rfl, hr⟩ := hr
  obtain ⟨other, hother, hpc, hmem⟩ := h set hset
  exact ⟨other, hother, hpc.symm, (hmem r).mp hr⟩

theorem Reordered.covered (h : Reordered sets sets') :
    Covered sets sets' ∧ Covered sets' sets := by
  obtain ⟨middle, hperm, hsame⟩ := h
  constructor
  · intro s hs
    obtain ⟨k, hk, rfl⟩ := List.getElem_of_mem (hperm.mem_iff.mp hs)
    obtain ⟨hpc, hregisters⟩ := hsame.get hk (hsame.length_eq ▸ hk)
    exact ⟨_, List.getElem_mem _, hpc, fun r => hregisters.mem_iff⟩
  · intro s hs
    obtain ⟨k, hk, rfl⟩ := List.getElem_of_mem hs
    obtain ⟨hpc, hregisters⟩ := hsame.get (hsame.length_eq ▸ hk) hk
    exact ⟨_, hperm.mem_iff.mpr (List.getElem_mem _), hpc.symm, fun r => hregisters.symm.mem_iff⟩

end ReferenceSet

namespace Description
variable {d d' : Description} {config : Config}

/-- Sets that cover each other make the same map. -/
theorem verifierMap_of_covered (hregisters : d.frame.registers = d'.frame.registers)
    (h : ReferenceSet.Covered d.references d'.references) (h' : ReferenceSet.Covered d'.references d.references)
    {bytes : Bytes} (hd : d.verifierMap = .ok bytes) : d'.verifierMap = .ok bytes := by
  simp only [verifierMap, Checked.bind_eq_ok] at hd ⊢
  obtain ⟨b, hb, hbuild⟩ := hd
  rw [hregisters] at hb
  have hentered := VerifierMap.Builder.addReferences_decides d.references { registers := d'.frame.registers.toNat }
  obtain ⟨hlisted, henters⟩ := hentered.of_eq_ok hb
  have hlisted' : ∀ set ∈ d'.references, ∀ r ∈ set.registers, r < d'.frame.registers.toNat := by
    intro set hset r hr
    obtain ⟨other, hother, -, hmem⟩ := h' set hset
    exact hlisted other hother r ((hmem r).mp hr)
  obtain ⟨b', hb', henters'⟩ :=
    (VerifierMap.Builder.addReferences_decides d'.references { registers := d'.frame.registers.toNat }).exists_ok hlisted'
  have hdeclared (pc : UInt32) : (∃ set ∈ d'.references, set.dexPc = pc) ↔ ∃ set ∈ d.references, set.dexPc = pc :=
    ⟨h'.declared, h.declared⟩
  have hreferred (pc : UInt32) (r : Nat) : (∃ set ∈ d'.references, set.dexPc = pc ∧ r ∈ set.registers) ↔
      ∃ set ∈ d.references, set.dexPc = pc ∧ r ∈ set.registers := ⟨h'.referred, h.referred⟩
  -- Both builders hold the same source PCs and registers, in whatever order these were entered.
  refine ⟨b', hb', ?_⟩
  rw [← hbuild]
  refine VerifierMap.Builder.build_of_enters (henters'.congr hdeclared hreferred) henters ?_
  rintro pc r ⟨set, hset, -, hr⟩
  exact hlisted set hset r hr

/-! ### Descriptions -/

/-- The same description with its unordered inputs in another order. -/
structure Reordered (d d' : Description) : Prop where
  references : ReferenceSet.Reordered d.references d'.references
  catches : d.catches.Perm d'.catches
  coreVmap : d.coreVmap.Perm d'.coreVmap
  same : d' = { d with references := d'.references, catches := d'.catches, coreVmap := d'.coreVmap }

section Reordered
variable (h : d.Reordered d')
include h

theorem Reordered.liveness_iff {live : VerifierMap} : d.liveness = .ok live ↔ d'.liveness = .ok live := by
  have hframe : d.frame = d'.frame := by rw [h.same]
  obtain ⟨hcovered, hcovered'⟩ := h.references.covered
  simp only [liveness, Checked.bind_eq_ok]
  refine exists_congr fun bytes => and_congr_left fun _ => ⟨?_, ?_⟩
  · exact verifierMap_of_covered (by rw [hframe]) hcovered hcovered'
  · exact verifierMap_of_covered (by rw [hframe]) hcovered' hcovered

theorem Reordered.lay_iff {l : Laid} : d.lay config = .ok l ↔ d'.lay config = .ok l := by
  have hfilling : d'.filling config.maxInstructions = d.filling config.maxInstructions := by rw [h.same]; rfl
  have hdata (f : Filling) : d'.dataSections f = d.dataSections f := by rw [h.same]; rfl
  simp only [lay, Checked.bind_eq_ok, hfilling, hdata, h.liveness_iff]

/-- Handlers are a set and core registers are sorted, so their order shows neither in the tables nor in the findings. -/
theorem Reordered.finish_eq (l : Laid) : l.finish d config = l.finish d' config := by
  have hsorted : d.sortedCatches = d'.sortedCatches := SortedWords.foldl_insertNew_congr fun _ => h.catches.mem_iff
  have hentries : VmapTable.entries d.coreVmap d'.fpVmap l.filling.frameSize =
      VmapTable.entries d'.coreVmap d'.fpVmap l.filling.frameSize := by
    rw [VmapTable.entries, SortedWords.sort_of_perm h.coreVmap, VmapTable.entries]
  have hfp : d.fpVmap = d'.fpVmap := by rw [h.same]
  have hframe : d.frame = d'.frame := by rw [h.same]
  have hcontext : d.context = d'.context := by rw [h.same]
  simp only [Laid.finish, VmapTable.build, output, hsorted, hentries, hfp, hframe, hcontext]

theorem Reordered.outline_iff {out : MethodOutput} : d.outline config = .ok out ↔ d'.outline config = .ok out := by
  simp only [outline, Checked.bind_eq_ok, h.lay_iff, h.finish_eq]

end Reordered

/-- Descriptions that differ in the order of their reference sets, of the registers in a set, of their handlers and of
    their core registers compile alike: both are refused, or they have the same method, patches and diagnostics. -/
theorem compile_eq_ok_iff_of_reordered (h : d.Reordered d') (config : Config) (out : MethodOutput) :
    (d.compile config).outcome = .ok out ↔ (d'.compile config).outcome = .ok out := by
  have hconfig : d'.configure config = d.configure config := by rw [h.same]; rfl
  rw [compile_outcome, compile_outcome, hconfig, h.outline_iff]

/-- A method with two sets for the source PC of its call, and with a handler that nothing exports. -/
def orderSample : Description where
  name := "order"
  instructions := [.label 0, .call 0x33 6 [], .exportPc 7, .exportPc 9]
  catches := [9, 5, 7]
  frame := { registers := 10 }
  coreVmap := [0x20001, 0x10002, 0x30000]
  references := [⟨6, [0, 9]⟩, ⟨4, []⟩, ⟨6, [9, 3]⟩]

/-- The same method, told in another order. -/
def orderSample' : Description :=
  { orderSample with
    catches := [5, 7, 9]
    coreVmap := [0x30000, 0x20001, 0x10002]
    references := [⟨6, [3, 9]⟩, ⟨6, [9, 0]⟩, ⟨4, []⟩] }

theorem orderSample_reordered : orderSample.Reordered orderSample' where
  references := ⟨[⟨6, [9, 3]⟩, ⟨6, [0, 9]⟩, ⟨4, []⟩], by decide,
    .cons ⟨rfl, by decide⟩ (.cons ⟨rfl, by decide⟩ (.cons ⟨rfl, by decide⟩ .nil))⟩
  catches := by decide
  coreVmap := by decide
  same := rfl

theorem compile_eq_ok_iff_of_reordered_sample : ∃ out, out.diagnostics ≠ [] ∧
    (orderSample.compile { verifyTables := true }).outcome = .ok out ∧
    (orderSample'.compile { verifyTables := true }).outcome = .ok out := by
  have hfound : ((orderSample.compile { verifyTables := true }).outcome.map (·.diagnostics.isEmpty)) = .ok false := by
    decide +kernel
  obtain ⟨out, hout, hfindings⟩ := Checked.map_eq_ok.mp hfound
  refine ⟨out, fun hnil => ?_, hout, ?_⟩
  · rw [hnil] at hfindings
    cases hfindings
  · exact (compile_eq_ok_iff_of_reordered orderSample_reordered _ out).mp hout

end Description

end MethodAssembler
