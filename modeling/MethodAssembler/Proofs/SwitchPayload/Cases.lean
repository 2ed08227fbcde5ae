import MethodAssembler.Proofs.Filling
import MethodAssembler.Proofs.SwitchPayload.Words

/-! # Building payloads

A payload stores all words of its switch, but counts its cases in 16 bits. So it holds the cases of its switch exactly
if these are fewer than 65536. The keys stand right behind the header, where they are found whatever the count; so do
the targets of a packed switch. The targets of a sparse one are looked for behind as many keys as are counted. -/

namespace MethodAssembler

namespace SwitchPayload

theorem wordAt_packed (firstKey : Int32) (targets : List Int32) (i : Nat) :
    wordAt (packed firstKey targets).units (2 + i * 2) = present (firstKey :: targets)[i]? := by
  rw [packed_units]
  exact wordAt_append _ _ i

theorem wordAt_sparse (cases : List (Int32 × Int32)) (i : Nat) :
    wordAt (sparse cases).units (2 + i * 2) = present (cases.map (·.1) ++ cases.map (·.2))[i]? := by
  rw [sparse_units]
  exact wordAt_append _ _ i

theorem relativeTarget_packed (firstKey : Int32) (targets : List Int32) (i : Nat) :
    (packed firstKey targets).relativeTarget i = present targets[i]? := by
  have hword := wordAt_packed firstKey targets (i + 1)
  rwa [show 2 + (i + 1) * 2 = 4 + i * 2 by omega] at hword

/-- The targets are looked for behind the keys that are counted, which may be fewer than there are. -/
theorem relativeTarget_sparse (cases : List (Int32 × Int32)) (i : Nat) : (sparse cases).relativeTarget i =
    present (cases.map (·.1) ++ cases.map (·.2))[cases.length % 2 ^ 16 + i]? := by
  have hword := wordAt_sparse cases ((sparse cases).size + i)
  rw [show 2 + ((sparse cases).size + i) * 2 = 2 + (sparse cases).size * 2 + i * 2 by omega] at hword
  rw [← size_sparse]
  exact hword

end SwitchPayload

/-! ### Switches of a method -/

namespace SwitchDescription
open SwitchPayload

/-- The cases of a switch, each with its key and its target. -/
def cases : SwitchDescription → List (Int32 × Int32)
  | .packed _ firstKey targets => packedCases firstKey targets
  | .sparse _ cases => cases

/-- What is found for the target of a case in a payload that counts `counted` cases. -/
def foundTarget (s : SwitchDescription) (counted i : Nat) : Option Int32 :=
  match s with
  | .packed _ _ targets => targets[i]?
  | .sparse _ cases => (cases.map (·.1) ++ cases.map (·.2))[counted + i]?

theorem size_payload (s : SwitchDescription) : s.payload.size = s.cases.length % 2 ^ 16 := by
  cases s with
  | packed dexPc firstKey targets => rw [payload, SwitchDescription.cases, length_packedCases, size_packed]
  | sparse dexPc cases => exact size_sparse cases

theorem key_payload (s : SwitchDescription) {i : Nat} {key target : Int32} (h : s.cases[i]? = some (key, target)) :
    s.payload.key i = .ok key := by
  cases s with
  | packed dexPc firstKey targets =>
    rw [SwitchDescription.cases, getElem?_packedCases] at h
    obtain ⟨_, -, hcase⟩ := Option.map_eq_some_iff.mp h
    cases hcase
    exact key_packed_of_word rfl (wordAt_packed firstKey targets 0) i
  | sparse dexPc cases =>
    rw [SwitchDescription.cases] at h
    have hlt : i < (cases.map (·.1)).length := by simpa using (List.getElem?_eq_some_iff.mp h).1
    have hkey := wordAt_sparse cases i
    rw [List.getElem?_append_left hlt, List.getElem?_map, h] at hkey
    exact hkey

theorem relativeTarget_payload (s : SwitchDescription) (i : Nat) :
    s.payload.relativeTarget i = present (s.foundTarget s.payload.size i) := by
  cases s with
  | packed dexPc firstKey targets => exact relativeTarget_packed firstKey targets i
  | sparse dexPc cases =>
    rw [payload, foundTarget, size_sparse]
    exact relativeTarget_sparse cases i

theorem holds_of_counted (s : SwitchDescription) (h : s.payload.size = s.cases.length) : s.payload.Holds s.cases := by
  cases s with
  | packed dexPc firstKey targets =>
    refine holds_of_packed_words rfl (h.trans (length_packedCases firstKey targets)) fun i w hw => ?_
    rw [payload, wordAt_packed, hw]
    rfl
  | sparse dexPc cases =>
    refine holds_of_sparse_words rfl h fun i w hw => ?_
    rw [SwitchDescription.cases] at hw
    rw [payload, wordAt_sparse, hw]
    rfl

/-- Building a payload loses cases exactly if there are 65536 or more: then too few are counted, and a sparse payload takes
    keys for targets. -/
theorem payload_holds_cases (s : SwitchDescription) :
    s.payload.size = s.cases.length % 2 ^ 16 ∧
    (∀ i : Fin s.cases.length, s.payload.key i = .ok (s.cases.get i).1) ∧
    (∀ i, s.payload.relativeTarget i = present (s.foundTarget s.payload.size i)) ∧
    (s.payload.Holds s.cases ↔ s.cases.length < 2 ^ 16) := by
  have hsize := s.size_payload
  refine ⟨hsize, fun i => ?_, s.relativeTarget_payload, fun hholds => ?_, fun hlt => ?_⟩
  · exact s.key_payload (List.getElem?_eq_getElem i.isLt)
  · rw [← hholds.size, hsize]
    exact Nat.mod_lt _ (by decide)
  · exact s.holds_of_counted (hsize.trans (Nat.mod_eq_of_lt hlt))

/-- Of 65537 sparse cases one is counted, and the key of the second stands for its target. -/
theorem sparse_payload_loses_cases : ∃ cases : List (Int32 × Int32), cases.length = 65537 ∧ cases[0]? = some (0, 0) ∧
    (payload (.sparse 0 cases)).size = 1 ∧ (payload (.sparse 0 cases)).relativeTarget 0 = .ok 1 := by
  -- the number stays a variable while the list is looked into
  obtain ⟨n, hn⟩ : ∃ n, n = 65537 := ⟨_, rfl⟩
  have hlength : ((List.range n).map fun i => (Int32.ofNat i, Int32.ofNat (2 * i))).length = n := by simp
  have hfirst : (List.range n)[0]? = some 0 := List.getElem?_range (by omega)
  have hsecond : (List.range n)[1]? = some 1 := List.getElem?_range (by omega)
  refine ⟨(List.range n).map fun i => (.ofNat i, .ofNat (2 * i)), hlength.trans hn, ?_, ?_, ?_⟩
  · rw [List.getElem?_map, hfirst]
    rfl
  · rw [payload, size_sparse, hlength, hn]
    rfl
  · rw [payload, relativeTarget_sparse, hlength, show n % 2 ^ 16 + 0 = 1 by omega,
      List.getElem?_append_left (by rw [List.length_map, hlength]; omega), List.getElem?_map, List.getElem?_map, hsecond]
    rfl

end SwitchDescription

end MethodAssembler
