import MethodAssembler.Proofs.MappingTable.Grammar
import MethodAssembler.Proofs.MappingTable.RoundTrip

/-! # Which tables pass for a list

A table passes the check against a list exactly if it decodes to the markers of the list, each kind in its block and in
list order, whatever forms its numbers have. A table that does not pass cannot be decoded, or it is refused where the
walk over the list first meets another entry than the marker's, none, or entries behind the last marker. -/

namespace MethodAssembler.MappingTable

/-- Markers take their entries off the front of the blocks `b` and leave the blocks `left`. -/
def Takes (before : List (InstrId × MappingKind × MappingEntry)) (b left : Blocks (List MappingEntry)) : Prop :=
  ∀ k, b.get k = entriesOf k (before.map (·.2)) ++ left.get k

/-- The first of the markers `behind` cannot take its entry off the blocks `left`, or there is none to empty them. -/
inductive Mismatches (left : Blocks (List MappingEntry)) :
    (behind : List (InstrId × MappingKind × MappingEntry)) → MappingMismatch → Prop
  | surplus {k : MappingKind} : left.get k ≠ [] → Mismatches left [] .surplus
  | endsBefore {id : InstrId} {kind : MappingKind} {e : MappingEntry}
    {behind : List (InstrId × MappingKind × MappingEntry)} :
    left.get kind = [] → Mismatches left ((id, kind, e) :: behind) (.endsBefore id)
  | wrongEntry {id : InstrId} {kind : MappingKind} {e found : MappingEntry} {rest : List MappingEntry}
    {behind : List (InstrId × MappingKind × MappingEntry)} :
    left.get kind = found :: rest → found ≠ e → Mismatches left ((id, kind, e) :: behind) (.wrongEntry id e found)

/-- A table repeats the markers of a list up to a mismatch. -/
def Deviates (t : MappingTable) (l : InstrList) (cause : MappingMismatch) : Prop :=
  ∃ before behind left, l.markers = before ++ behind ∧ Takes before ⟨t.pcToDex, t.dexToPc⟩ left ∧
    Mismatches left behind cause

section Refusals
variable {b left : Blocks (List MappingEntry)} {before : List (InstrId × MappingKind × MappingEntry)}

theorem Takes.nil (b : Blocks (List MappingEntry)) : Takes [] b b := fun _ => rfl

theorem Takes.cons {id : InstrId} {kind : MappingKind} {e : MappingEntry} {rest : List MappingEntry}
    (h : b.get kind = e :: rest) (hbefore : Takes before (b.set kind rest) left) :
    Takes ((id, kind, e) :: before) b left := by
  intro k
  rw [Blocks.get_of_taken h k, hbefore k, ← List.append_assoc, ← entriesOf_append]
  rfl

theorem matchMarkers_eq_error {markers : List (InstrId × MappingKind × MappingEntry)} {fault : Fault}
    (h : matchMarkers markers b = .error fault) :
    ∃ cause before behind left, fault = .refused (.mappingMismatch cause) ∧ markers = before ++ behind ∧
      Takes before b left ∧ Mismatches left behind cause := by
  induction markers generalizing b with
  | nil =>
    rcases matchMarkers_nil b with ⟨-, hok⟩ | ⟨⟨k, hk⟩, herror⟩
    · rw [hok] at h
      cases h
    · rw [herror] at h
      cases h
      exact ⟨_, [], [], b, rfl, rfl, .nil b, .surplus hk⟩
  | cons marker markers ih =>
    obtain ⟨id, kind, e⟩ := marker
    rcases matchMarkers_cons id kind e markers b with ⟨rest, htaken, hnext⟩ | ⟨hnone, herror⟩ |
      ⟨found, rest, hfound, hne, herror⟩
    · -- The marker was taken, so the cause is behind it.
      rw [hnext] at h
      obtain ⟨cause, before, behind, left, hfault, rfl, hbefore, hcause⟩ := ih h
      exact ⟨cause, (id, kind, e) :: before, behind, left, hfault, rfl, hbefore.cons htaken, hcause⟩
    · rw [herror] at h
      cases h
      exact ⟨_, [], _, b, rfl, rfl, .nil b, .endsBefore hnone⟩
    · rw [herror] at h
      cases h
      exact ⟨_, [], _, b, rfl, rfl, .nil b, .wrongEntry hfound hne⟩

end Refusals

/-- A table passes exactly if its blocks are the markers of the list. -/
theorem matchMarkers_markers_eq_ok {t : MappingTable} {l : InstrList} :
    matchMarkers l.markers ⟨t.pcToDex, t.dexToPc⟩ = .ok () ↔
      t.pcToDex = l.marked .pcToDex ∧ t.dexToPc = l.marked .dexToPc := by
  simp only [matchMarkers_eq_ok, entriesOf_markers]
  refine ⟨fun h => ⟨h .pcToDex, h .dexToPc⟩, fun h k => ?_⟩
  cases k
  · exact h.1
  · exact h.2

/-- A table passes the check against a list exactly if it can be decoded and its blocks are the markers of the list; so
    the table made of the list passes. Any other one is refused, because it cannot be decoded or for the first marker
    that it does not repeat. -/
theorem verify_complete (data : Bytes) (l : InstrList) :
    (verify data l = .ok () ↔
      ∃ t, decode data = .ok t ∧ t.pcToDex = l.marked .pcToDex ∧ t.dexToPc = l.marked .dexToPc) ∧
    (∀ built, create l = .ok built → verify built.table l = .ok ()) ∧
    (∀ fault, verify data l = .error fault →
      (∃ defect, decode data = .error fault ∧ fault = .refused (.malformed defect)) ∨
      ∃ t cause, decode data = .ok t ∧ fault = .refused (.mappingMismatch cause) ∧ Deviates t l cause) := by
  refine ⟨?_, fun built => verify_create, fun fault h => ?_⟩
  · simp only [verify, Checked.bind_eq_ok, matchMarkers_markers_eq_ok]
  · rcases Checked.bind_eq_error.mp h with hdecode | ⟨t, hdecode, hmatch⟩
    · obtain ⟨defect, hdefect⟩ := malformed_of_decode hdecode
      exact .inl ⟨defect, hdecode, hdefect⟩
    · obtain ⟨cause, before, behind, left, hfault, hmarkers, htakes, hcause⟩ := matchMarkers_eq_error hmatch
      exact .inr ⟨t, cause, hdecode, hfault, before, behind, left, hmarkers, htakes, hcause⟩

/-- Counts and differences may be longer than they need to be. -/
example : verify #[0x83, 0x00, 0x02, 0x88, 0x80, 0x00, 0x7f, 0x00, 0x84, 0x00, 0x04, 0x07] sampleList = .ok () :=
  rfl

end MethodAssembler.MappingTable
