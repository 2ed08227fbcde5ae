import MethodAssembler.CommandLine.Inspection
import MethodAssembler.Proofs.ReferenceMap.Native
import MethodAssembler.Proofs.SourceMapping

/-! # Inspecting what was compiled

The tables of a compiled method are read back without a fault: the mapping table, every slot of the reference map and the
register table. Hence an artifact of the method can be inspected, and its slots are those of the calls, each once. -/

namespace MethodAssembler

/-! ### Register tables -/

namespace VmapTable

theorem ofBytes_of_ne_nil {bytes : List UInt8} (h : bytes ≠ []) :
    ofBytes bytes = Leb128.takeUnsigned bytes >>= fun r => Leb128.takeUnsignedMany r.1.toNat r.2 >>= fun s => .ok s.1 := by
  cases bytes with
  | nil => exact absurd rfl h
  | cons byte bytes => rfl

/-- Reading stops at the count, which is kept in a word. -/
theorem ofBytes_stream (values : List UInt32) :
    ofBytes (Leb128.encodeStream (.ofNat values.length :: values)) = .ok (values.take (values.length % 2 ^ 32)) := by
  have hcount : (UInt32.ofNat values.length).toNat = values.length % 2 ^ 32 := UInt32.toNat_ofNat
  have htake := Leb128.takeUnsigned_encode (.ofNat values.length) (Leb128.encodeStream values)
  have hmany := Leb128.takeUnsignedMany_stream (Nat.mod_le values.length (2 ^ 32))
  rw [Leb128.encodeStream, List.flatMap_cons, ← Leb128.encodeStream]
  have hne : Leb128.encodeUnsigned (.ofNat values.length) ++ Leb128.encodeStream values ≠ [] := by
    intro hnil
    rw [hnil] at htake
    cases htake
  simp only [ofBytes_of_ne_nil hne, htake, hcount, Checked.ok_bind, hmany]

/-- A register table that was built spells its entries, as many as a word can count. -/
theorem decode_build {core fp : List UInt32} {frameSize : UInt32} {frame : Frame} {bytes : Bytes}
    (h : build core fp frameSize frame = .ok bytes) :
    decode bytes = .ok ((entries core fp frameSize).take ((entries core fp frameSize).length % 2 ^ 32)) := by
  obtain ⟨_, -, h⟩ := Checked.bind_eq_ok.mp h
  obtain ⟨_, -, h⟩ := Checked.bind_eq_ok.mp h
  cases h
  rw [decode, List.toList_toArray, ofBytes_stream, Checked.ofBytes]

end VmapTable

/-! ### Reference maps -/

namespace ReferenceMap

/-- Every slot can be read, and the slots hold some offsets in some order. -/
def Lists (offsets : List UInt32) (m : ReferenceMap) : Prop :=
  ∃ found bitmaps, (List.range m.size).mapM m.offsetAt = .ok found ∧ (List.range m.size).mapM m.bitmapAt = .ok bitmaps ∧
    found.Perm offsets

section Slots
variable {b : Builder} {slots added : List (UInt32 × Bytes)} {live : VerifierMap} {safepoints : List MappingEntry}

theorem offsets_entries (h : List.Forall₂ (EntryFor live) safepoints added) :
    added.map (·.1) = safepoints.map (·.nativeOffset) := by
  induction h with
  | nil => rfl
  | cons he _ ih => rw [List.map_cons, List.map_cons, ih, he.1]

theorem Builder.Full.lists (h : b.Full slots) (hholds : b.Holds added)
    (hadded : List.Forall₂ (EntryFor live) safepoints added) : b.map.Lists (safepoints.map (·.nativeOffset)) := by
  have hperm : slots.Perm added := by
    have hslots := hholds.slots
    rw [h.taken] at hslots
    simpa [List.reduceOption] using hslots
  refine ⟨slots.map (·.1), slots.map (·.2), ?_, ?_, offsets_entries hadded ▸ hperm.map _⟩
  · rw [size_map h, ← List.length_map (·.1)]
    refine Checked.mapM_range fun i offset hi => ?_
    rw [List.getElem?_map] at hi
    obtain ⟨e, he, rfl⟩ := Option.map_eq_some_iff.mp hi
    exact offsetAt_map h he
  · rw [size_map h, ← List.length_map (·.2)]
    refine Checked.mapM_range fun i bitmap hi => ?_
    rw [List.getElem?_map] at hi
    obtain ⟨e, he, rfl⟩ := Option.map_eq_some_iff.mp hi
    exact bitmapAt_map h he

end Slots

/-- A map that was made lists the native offsets of its mapping table. -/
theorem create_lists {known : UInt32 → Prop} {live : VerifierMap} (hlive : live.Knows known)
    (hw : live.bitmapWidth < 2 ^ 13) {mapping : Bytes} {table : MappingTable} {built : MappingTable.Built}
    (htable : MappingTable.decode mapping = .ok table) (h : create mapping live = .ok built) :
    ∃ m, ofBytes built.table = .ok m ∧ m.Lists (table.pcToDex.map (·.nativeOffset)) := by
  simp only [create, htable, Checked.ok_bind, new_eq hw] at h
  obtain ⟨b₀, hnew, h⟩ := Checked.bind_eq_ok.mp h
  obtain ⟨b, hadd, h⟩ := Checked.bind_eq_ok.mp h
  cases h
  split at hnew
  · cases hnew
  · rename_i hlen
    cases hnew
    rcases addSafepoints_free hlive hw (Nat.lt_of_not_le hlen) with ⟨e, -, -, herror⟩ | ⟨-, b', slots, added, hrun, hfull,
      hholds, hadded⟩
    · rw [herror] at hadd
      cases hadd
    · rw [hrun] at hadd
      cases hadd
      exact ⟨b.map, ofBytes_table hfull, hfull.lists hholds hadded⟩

end ReferenceMap

/-! ### Inspection -/

namespace Artifact
open Stateful

theorem inspectMapping_succeeds (t : MappingTable) : Succeeds (inspectMapping t) :=
  (Succeeds.modify _).bind fun _ => (Succeeds.modify _).bind fun _ => (Succeeds.modify _).bind fun _ => .modify _

theorem inspectReferences_succeeds {m : ReferenceMap} {offsets : List UInt32} (h : m.Lists offsets) :
    Succeeds (inspectReferences m) := by
  obtain ⟨found, bitmaps, hfound, hbitmaps, -⟩ := h
  refine (Succeeds.modify _).bind fun _ => .forM fun i hi => ?_
  obtain ⟨offset, hoffset⟩ := Checked.exists_of_mapM hfound i hi
  obtain ⟨bitmap, hbitmap⟩ := Checked.exists_of_mapM hbitmaps i hi
  exact .lift_bind hoffset (.lift_bind hbitmap (.modify _))

/-- An artifact can be inspected if its tables can be read. -/
theorem inspect_succeeds {a : Artifact} {t : MappingTable} {m : ReferenceMap} {offsets vmap : List UInt32}
    (ht : MappingTable.decode a.compiled.mappingTable = .ok t) (hm : ReferenceMap.ofBytes a.compiled.referenceMap = .ok m)
    (hlists : m.Lists offsets) (hvmap : VmapTable.decode a.compiled.vmapTable = .ok vmap) : Succeeds a.inspect := by
  have hend : Succeeds (do
      let vmap ← (liftM (VmapTable.decode a.compiled.vmapTable) : LinesM _)
      LinesM.line ("  vmap: " ++ bracketed (vmap.map fun n => toString n.toNat))
      LinesM.lines (a.patches.map patchLine)
      LinesM.lines (a.diagnostics.map fun d => "  " ++ d.text)) :=
    .lift_bind hvmap ((Succeeds.modify _).bind fun _ => (Succeeds.modify _).bind fun _ => .modify _)
  refine (Succeeds.modify _).bind fun _ => .lift_bind ht ((inspectMapping_succeeds t).bind fun _ => ?_)
  split
  · exact .lift_bind hm ((inspectReferences_succeeds hlists).bind fun _ => hend)
  · exact hend

end Artifact

/-! ### Compiled methods -/

namespace Laid
variable {d : Description} {config : Config} {l : Laid}

/-- The calls of a laid-out method have native offsets of their own. -/
theorem Of.nodup_offsets (h : l.Of d config) :
    ((MappingTable.entriesOf .pcToDex (markersOf l.stamped)).map (·.nativeOffset)).Nodup := by
  have hcalls := pairwise_callSites d.instructions
  rw [← mappedSites_calls, ← entriesOf_stream .pcToDex h.map_records h.records, List.pairwise_map] at hcalls
  refine List.pairwise_map.mpr (hcalls.imp ?_)
  intro e e' hlt heq
  rw [heq] at hlt
  exact Nat.lt_irrefl _ hlt

/-- The reference map of a laid-out method lists the native offsets of its calls. -/
theorem Of.lists {mapping references : MappingTable.Built} (h : l.Of d config)
    (hmapping : MappingTable.encode (markersOf l.stamped) = .ok mapping)
    (hreferences : ReferenceMap.create mapping.table l.live = .ok references) :
    ∃ m, ReferenceMap.ofBytes references.table = .ok m ∧
      m.Lists ((MappingTable.entriesOf .pcToDex (markersOf l.stamped)).map (·.nativeOffset)) := by
  obtain ⟨haccepts, hanswers⟩ := (VerifierMap.verifierMap_decides d).of_eq_ok h.live
  have hwidth : l.live.bitmapWidth < 2 ^ 13 := by
    have hregisters := haccepts.registers
    rw [hanswers.width]
    omega
  exact ReferenceMap.create_lists hanswers.knows hwidth (MappingTable.decode_encode hmapping) hreferences

end Laid

namespace Description
variable {d : Description} {config : Config} {out : MethodOutput}

/-- The tables of a compiled method can be read: the mapping table, the offset and the bitmap in every slot of the
    reference map, and the register table. The slots hold the native offset of each call, each once, and every artifact of
    the method can be inspected to its end. -/
theorem compile_inspectable (h : (d.compile config).outcome = .ok out) : ∃ t m offsets bitmaps vmap,
    MappingTable.decode out.method.mappingTable = .ok t ∧ ReferenceMap.ofBytes out.method.referenceMap = .ok m ∧
      (List.range m.size).mapM m.offsetAt = .ok offsets ∧ (List.range m.size).mapM m.bitmapAt = .ok bitmaps ∧
      VmapTable.decode out.method.vmapTable = .ok vmap ∧
      offsets.Nodup ∧ offsets.Perm (t.pcToDex.map (·.nativeOffset)) ∧
      ∀ a : Artifact, a.compiled = out.method → ∀ lines, ∃ lines', a.inspect lines = .ok () lines' := by
  rw [compile_outcome] at h
  obtain ⟨l, hl, hfinish⟩ := of_outline h
  obtain ⟨mapping, references, hmapping, hreferences, htable, hmap⟩ := (Laid.finished_of_finish hfinish).tables
  have hvmap := VmapTable.decode_build (Laid.vmapTable_of_finish hfinish)
  have hdecode := MappingTable.decode_encode hmapping
  obtain ⟨m, hm, hlists⟩ := hl.lists hmapping hreferences
  have ⟨offsets, bitmaps, hoffsets, hbitmaps, hperm⟩ := hlists
  rw [← htable] at hdecode
  rw [← hmap] at hm
  refine ⟨_, m, offsets, bitmaps, _, hdecode, hm, hoffsets, hbitmaps, hvmap, ?_, hperm, fun a ha lines => ?_⟩
  · exact hperm.nodup_iff.mpr hl.nodup_offsets
  · rw [← ha] at hdecode hm hvmap
    obtain ⟨_, lines', hrun⟩ := Artifact.inspect_succeeds hdecode hm hlists hvmap lines
    exact ⟨lines', hrun⟩

/-- The slots of the three calls are not in the order of the calls. -/
theorem compile_inspectable_threeCalls : ∃ out t m vmap lines, (threeCalls.compile {}).outcome = .ok out ∧
    MappingTable.decode out.method.mappingTable = .ok t ∧ t.pcToDex = [⟨8, 1⟩, ⟨12, 3⟩, ⟨16, 5⟩] ∧
    ReferenceMap.ofBytes out.method.referenceMap = .ok m ∧ (List.range m.size).mapM m.offsetAt = .ok [12, 16, 8] ∧
    [12, 16, 8].Perm (t.pcToDex.map (·.nativeOffset)) ∧ VmapTable.decode out.method.vmapTable = .ok vmap ∧
    ({ name := "calls", methodIndex := 0, compiled := out.method } : Artifact).inspect #[] = .ok () lines := by
  obtain ⟨out, m, hout, hm, hslots⟩ := exists_compile_threeCalls
  obtain ⟨t, m', offsets, -, vmap, ht, hm', hoffsets, -, hvmap, -, hperm, hinspect⟩ := compile_inspectable hout
  cases hm.symm.trans hm'
  cases hslots.symm.trans hoffsets
  obtain ⟨lines, hlines⟩ := hinspect { name := "calls", methodIndex := 0, compiled := out.method } rfl #[]
  have hcalls : ((threeCalls.compile {}).outcome >>= fun out => MappingTable.decode out.method.mappingTable >>= fun t =>
      pure t.pcToDex) = .ok [⟨8, 1⟩, ⟨12, 3⟩, ⟨16, 5⟩] := by decide +kernel
  simp only [hout, ht, Checked.ok_bind, Checked.pure_eq, Except.ok.injEq] at hcalls
  exact ⟨out, t, m, vmap, lines, hout, ht, hcalls, hm, hslots, hperm, hvmap, hlines⟩

end Description

end MethodAssembler
