import MethodAssembler.Proofs.LaidMethod
import MethodAssembler.Proofs.ReferenceMap.Native

/-! # Precise collection

A collector that stops a thread at the return address of a call finds in the reference map of the method which registers
hold references there: those that were declared for the source PC of the call. At no other address does it find
anything. -/

namespace MethodAssembler

namespace Description
variable {d : Description} {config : Config} {out : MethodOutput}

/-- The reference map of a compiled method is made of the safepoints in the layout of its stream. -/
theorem outline_referenceMap (h : d.outline config = .ok out) : ∃ live entries stamped stop mapping built,
    d.liveness = .ok live ∧ entries.map (·.2) = d.instructions.flatMap StreamItem.records ∧
      FixedWidth.layOut 4 entries 0 = .ok (stamped, stop) ∧ MappingTable.encode (markersOf stamped) = .ok mapping ∧
      ReferenceMap.create mapping.table live = .ok built ∧ out.method.referenceMap = built.table := by
  obtain ⟨l, hl, hfinish⟩ := of_outline h
  obtain ⟨mapping, built, hmapping, hbuilt, -, hout⟩ := (Laid.finished_of_finish hfinish).tables
  exact ⟨l.live, _, l.stamped, _, mapping, built, hl.live, hl.map_records, hl.records, hmapping, hbuilt, hout⟩

/-- A search in the reference map of a compiled method finds a bitmap exactly at the return addresses of its calls. The
    bitmap has a bit for each register, set if a reference set for the source PC of the call lists the register. -/
theorem compile_referenceMap (h : (d.compile config).outcome = .ok out) :
    ∃ m, ReferenceMap.ofBytes out.method.referenceMap = .ok m ∧ ∀ address : UInt32, ∃ found,
      m.find? address = .ok found ∧ (found.isSome = true ↔ ∃ pc, ReturnsTo d.instructions pc address.toNat) ∧
      ∀ bitmap pc, found = some bitmap → ReturnsTo d.instructions pc address.toNat →
        bitmap.size = (d.frame.registers.toNat + 7) / 8 ∧
        ∀ r, hasBit bitmap r = true ↔ ∃ set ∈ d.references, set.dexPc = pc ∧ r ∈ set.registers := by
  rw [compile_outcome] at h
  obtain ⟨live, entries, stamped, stop, mapping, built, hlive, hentries, hlayout, hmapping, hbuilt, hout⟩ :=
    outline_referenceMap h
  obtain ⟨haccepts, hanswers⟩ := (VerifierMap.verifierMap_decides d).of_eq_ok hlive
  obtain ⟨-, m, hm, hserves⟩ := (ReferenceMap.create_decides (MappingTable.decode_encode hmapping) hanswers
    haccepts.registers).of_eq_ok hbuilt
  have hsafepoints : _ = returnAddresses 0 d.instructions := safepoints_of_stream hentries rfl hlayout
  have hreturns : ∀ (address : UInt32) pc, ReturnsTo d.instructions pc address.toNat ↔
      ⟨address, pc⟩ ∈ MappingTable.entriesOf .pcToDex (markersOf stamped) := by
    intro address pc
    rw [returnsTo_iff, ← hsafepoints, ← List.mem_map_of_injective MappingEntry.returnAddress_injective]
    rfl
  refine ⟨m, hout ▸ hm, fun address => ?_⟩
  obtain ⟨found, hfound, hsome, hnone⟩ := hserves address
  refine ⟨found, hfound, ⟨fun hs => ?_, ?_⟩, ?_⟩
  · obtain ⟨bitmap, hbitmap⟩ := Option.isSome_iff_exists.mp hs
    obtain ⟨e, he, rfl, -⟩ := hsome bitmap hbitmap
    exact ⟨e.dexPc, (hreturns e.nativeOffset e.dexPc).mpr he⟩
  · rintro ⟨pc, hpc⟩
    cases found with
    | none => exact absurd rfl (hnone rfl _ ((hreturns address pc).mp hpc))
    | some bitmap => rfl
  · intro bitmap pc hbitmap hpc
    obtain ⟨e, he, rfl, hfind⟩ := hsome bitmap hbitmap
    have he := (hreturns e.nativeOffset e.dexPc).mpr he
    have heq : e.dexPc = pc := returnAddresses_unique (returnsTo_iff.mp he) (returnsTo_iff.mp hpc)
    rw [heq] at hfind
    exact hanswers.of_found hfind

/-- All three calls are found, though two of them ask for the same slot, each with the registers stated for it. A return
    address that none of them has is searched for in vain. -/
theorem compile_referenceMap_threeCalls : ∃ out m first second third, (threeCalls.compile {}).outcome = .ok out ∧
    ReferenceMap.ofBytes out.method.referenceMap = .ok m ∧ (List.range m.size).mapM m.offsetAt = .ok [12, 16, 8] ∧
    (m.find? 8 = .ok (some first) ∧ first.size = 2 ∧ ∀ r, hasBit first r = true ↔ r = 0 ∨ r = 9 ∨ r = 2) ∧
    (m.find? 12 = .ok (some second) ∧ second.size = 2 ∧ ∀ r, hasBit second r = true ↔ r = 4) ∧
    (m.find? 16 = .ok (some third) ∧ third.size = 2 ∧ ∀ r, hasBit third r = false) ∧ m.find? 4 = .ok none := by
  obtain ⟨out, m, hout, hm, hslots⟩ := exists_compile_threeCalls
  obtain ⟨m', hm', hfind⟩ := compile_referenceMap hout
  cases hm.symm.trans hm'
  have hreturns : ∀ pc address, ReturnsTo threeCalls.instructions pc address ↔
      (address, pc) ∈ [(8, 1), (12, 3), (16, 5)] := fun _ _ => returnsTo_iff
  have hserved : ∀ (address : UInt32) pc, (address.toNat, pc) ∈ [(8, 1), (12, 3), (16, 5)] → ∃ bitmap,
      m.find? address = .ok (some bitmap) ∧ bitmap.size = 2 ∧
        ∀ r, hasBit bitmap r = true ↔ ∃ set ∈ threeCalls.references, set.dexPc = pc ∧ r ∈ set.registers := by
    intro address pc hpc
    obtain ⟨found, hfound, hsome, hbits⟩ := hfind address
    have hcall := (hreturns pc _).mpr hpc
    obtain ⟨bitmap, rfl⟩ := Option.isSome_iff_exists.mp (hsome.mpr ⟨pc, hcall⟩)
    exact ⟨bitmap, hfound, hbits bitmap pc rfl hcall⟩
  obtain ⟨first, hfirst, hsize₁, hbits₁⟩ := hserved 8 1 (by decide)
  obtain ⟨second, hsecond, hsize₂, hbits₂⟩ := hserved 12 3 (by decide)
  obtain ⟨third, hthird, hsize₃, hbits₃⟩ := hserved 16 5 (by decide)
  obtain ⟨other, hother, hnone, -⟩ := hfind 4
  refine ⟨out, m, first, second, third, hout, hm, hslots, ⟨hfirst, hsize₁, fun r => ?_⟩, ⟨hsecond, hsize₂, fun r => ?_⟩,
    ⟨hthird, hsize₃, fun r => ?_⟩, ?_⟩
  · rw [hbits₁]
    simp [threeCalls, or_assoc]
  · rw [hbits₂]
    simp [threeCalls]
  · rw [← Bool.not_eq_true, hbits₃]
    simp [threeCalls]
  · cases other with
    | none => exact hother
    | some _ =>
      obtain ⟨pc, hpc⟩ := hnone.mp rfl
      have hmem := (hreturns pc 4).mp hpc
      simp at hmem

end Description

end MethodAssembler
