import MethodAssembler.Proofs.Resolution

/-! # Words in units

A payload is a header of two units with words behind it, each spelled by two units. So it is read word by word, and
words that are spelled again give back their units. The words of a packed payload are its first key and its targets,
those of a sparse one its keys and then its targets. -/

namespace MethodAssembler

/-! ### One word -/

section Spelling
variable {units : Array UInt16} {place : Nat} {low high : UInt16} {w : Int32}

theorem wordAt_of_units (hlow : units[place]? = some low) (hhigh : units[place + 1]? = some high) :
    wordAt units place = .ok (UInt32.ofNat (low.toNat + 65536 * high.toNat)).toInt32 := by
  simp only [wordAt, hlow, hhigh, present_some, Checked.ok_bind, Checked.pure_eq]

theorem unitsOfWord_spelled (low high : UInt16) :
    unitsOfWord (UInt32.ofNat (low.toNat + 65536 * high.toNat)).toInt32 = [low, high] := by
  have hlow := low.toNat_lt
  have hhigh := high.toNat_lt
  have hnat : (UInt32.ofNat (low.toNat + 65536 * high.toNat)).toNat = low.toNat + 65536 * high.toNat :=
    UInt32.toNat_ofNat_of_lt' (by rw [UInt32.size]; omega)
  rw [unitsOfWord, UInt32.toUInt32_toInt32, hnat, show (low.toNat + 65536 * high.toNat) % 65536 = low.toNat by omega,
    show (low.toNat + 65536 * high.toNat) / 65536 = high.toNat by omega, UInt16.ofNat_toNat, UInt16.ofNat_toNat]

/-- Words that are spelled alike are the same. -/
theorem spelled_unitsOfWord (h : unitsOfWord w = [low, high]) :
    (UInt32.ofNat (low.toNat + 65536 * high.toNat)).toInt32 = w := by
  have hlt := w.toUInt32.toNat_lt
  obtain ⟨rfl, rfl⟩ : UInt16.ofNat (w.toUInt32.toNat % 65536) = low ∧ UInt16.ofNat (w.toUInt32.toNat / 65536) = high := by
    simpa [unitsOfWord] using h
  rw [UInt16.toNat_ofNat_of_lt' (by rw [UInt16.size]; omega), UInt16.toNat_ofNat_of_lt' (by rw [UInt16.size]; omega),
    Nat.mod_add_div, UInt32.ofNat_toNat, Int32.toInt32_toUInt32]

end Spelling

/-! ### Many words -/

/-- What is read behind other units: the words that stand there, as far as there are any. -/
theorem wordAt_append (header : List UInt16) (words : List Int32) (i : Nat) :
    wordAt (header ++ words.flatMap unitsOfWord).toArray (header.length + i * 2) = present words[i]? := by
  induction words generalizing header i with
  | nil => simp [wordAt, present]
  | cons w words ih =>
    cases i with
    | zero =>
      obtain ⟨low, high, hw⟩ : ∃ low high, unitsOfWord w = [low, high] := ⟨_, _, rfl⟩
      have hlow : (header ++ (w :: words).flatMap unitsOfWord).toArray[header.length]? = some low := by simp [hw]
      have hhigh : (header ++ (w :: words).flatMap unitsOfWord).toArray[header.length + 1]? = some high := by simp [hw]
      have hread := wordAt_of_units hlow hhigh
      rw [spelled_unitsOfWord hw] at hread
      simpa using hread
    | succ i =>
      -- a word that is passed belongs to the header of the others
      have hrest := ih (header ++ unitsOfWord w) i
      have hlength : header.length + (i + 1) * 2 = (header ++ unitsOfWord w).length + i * 2 := by
        rw [List.length_append, show (unitsOfWord w).length = 2 from rfl]
        omega
      rw [List.flatMap_cons, ← List.append_assoc, hlength, hrest, List.getElem?_cons_succ]

/-- Where there are units enough, there are words, and these units spell them. -/
theorem exists_words {units : Array UInt16} {place count : Nat} (h : place + 2 * count ≤ units.size) :
    ∃ words : List Int32, words.length = count ∧ words.flatMap unitsOfWord = (units.toList.drop place).take (2 * count) ∧
      ∀ i w, words[i]? = some w → wordAt units (place + i * 2) = .ok w := by
  induction count generalizing place with
  | zero => exact ⟨[], rfl, by simp, by simp⟩
  | succ count ih =>
    have hlow := Array.getElem?_eq_getElem (show place < units.size by omega)
    have hhigh := Array.getElem?_eq_getElem (show place + 1 < units.size by omega)
    have hread := wordAt_of_units hlow hhigh
    -- A word that was read off two units is spelled by the same two.
    have hspelled := unitsOfWord_spelled units[place] units[place + 1]
    generalize (UInt32.ofNat (units[place].toNat + 65536 * units[place + 1].toNat)).toInt32 = w at hread hspelled
    obtain ⟨words, hlength, hunits, hwords⟩ := @ih (place + 2) (by omega)
    refine ⟨w :: words, by rw [List.length_cons, hlength], ?_, fun i v hv => ?_⟩
    · have hdrop : units.toList.drop place = [units[place], units[place + 1]] ++ units.toList.drop (place + 2) := by
        rw [List.drop_eq_getElem_cons (by rw [Array.length_toList]; omega),
          List.drop_eq_getElem_cons (by rw [Array.length_toList]; omega)]
        rfl
      rw [List.flatMap_cons, hspelled, hunits, hdrop, show 2 * (count + 1) = 2 * count + 1 + 1 by omega]
      rfl
    · cases i with
      | zero =>
        cases hv
        simpa using hread
      | succ i =>
        rw [show place + (i + 1) * 2 = place + 2 + i * 2 by omega]
        exact hwords i v hv

/-! ### Cases -/

namespace SwitchPayload

/-- The cases of a packed switch: its keys follow the first one. -/
def packedCases (firstKey : Int32) (targets : List Int32) : List (Int32 × Int32) :=
  targets.mapIdx fun i target => (firstKey + .ofNat i, target)

theorem packed_units (firstKey : Int32) (targets : List Int32) : (packed firstKey targets).units =
    ([packedIdent, .ofNat targets.length] ++ (firstKey :: targets).flatMap unitsOfWord).toArray := rfl

theorem sparse_units (cases : List (Int32 × Int32)) : (sparse cases).units =
    ([sparseIdent, .ofNat cases.length] ++ (cases.map (·.1) ++ cases.map (·.2)).flatMap unitsOfWord).toArray := by
  rw [List.flatMap_append, List.flatMap_map, List.flatMap_map]
  rfl

/-- A payload counts the given cases, and has the key and the target of each. -/
structure Holds (p : SwitchPayload) (cases : List (Int32 × Int32)) : Prop where
  size : p.size = cases.length
  case : ∀ i key target, cases[i]? = some (key, target) → p.key i = .ok key ∧ p.relativeTarget i = .ok target

section Reading
variable {p : SwitchPayload} {firstKey : Int32} {targets : List Int32} {cases : List (Int32 × Int32)}

theorem getElem?_packedCases (firstKey : Int32) (targets : List Int32) (i : Nat) :
    (packedCases firstKey targets)[i]? = targets[i]?.map (firstKey + .ofNat i, ·) := List.getElem?_mapIdx

theorem length_packedCases (firstKey : Int32) (targets : List Int32) :
    (packedCases firstKey targets).length = targets.length := List.length_mapIdx

theorem key_packed_of_word (hk : p.kind = .packed) (hfirst : wordAt p.units 2 = .ok firstKey) (i : Nat) :
    p.key i = .ok (firstKey + .ofNat i) := by
  rw [key, hk]
  simp only [hfirst, Checked.ok_bind, Checked.pure_eq]

theorem holds_of_packed_words (hk : p.kind = .packed) (hsize : p.size = targets.length)
    (hwords : ∀ i w, (firstKey :: targets)[i]? = some w → wordAt p.units (2 + i * 2) = .ok w) :
    p.Holds (packedCases firstKey targets) := by
  refine ⟨by rw [length_packedCases, hsize], fun i key target hcase => ?_⟩
  rw [getElem?_packedCases] at hcase
  obtain ⟨_, htarget, hpair⟩ := Option.map_eq_some_iff.mp hcase
  cases hpair
  refine ⟨key_packed_of_word hk (hwords 0 firstKey rfl) i, ?_⟩
  rw [relativeTarget, hk]
  simp only [show 4 + i * 2 = 2 + (i + 1) * 2 by omega]
  exact hwords (i + 1) target htarget

theorem holds_of_sparse_words (hk : p.kind = .sparse) (hsize : p.size = cases.length)
    (hwords : ∀ i w, (cases.map (·.1) ++ cases.map (·.2))[i]? = some w → wordAt p.units (2 + i * 2) = .ok w) :
    p.Holds cases := by
  refine ⟨hsize, fun i key target hcase => ⟨?_, ?_⟩⟩
  · rw [SwitchPayload.key, hk]
    refine hwords i key ?_
    rw [List.getElem?_append_left (by simpa using (List.getElem?_eq_some_iff.mp hcase).1), List.getElem?_map, hcase]
    rfl
  · rw [relativeTarget, hk]
    simp only [show 2 + p.size * 2 + i * 2 = 2 + (cases.length + i) * 2 by omega]
    refine hwords (cases.length + i) target ?_
    rw [List.getElem?_append_right (by simp), List.length_map, Nat.add_sub_cancel_left, List.getElem?_map, hcase]
    rfl

end Reading

end SwitchPayload

end MethodAssembler
