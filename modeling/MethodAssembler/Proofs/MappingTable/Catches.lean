import MethodAssembler.MappingTable.Verify
import MethodAssembler.Proofs.SortedWords

/-! # Findings about the entries of handlers

The exported PCs and the entries of handlers are compared in ascending order: the lowest word of both lists is taken off
and found odd, or it is taken off both if both have it. What is found is therefore the difference of the two collections,
both ways round, in ascending order and with repetitions. A handler answers for one export of its entry, so a PC that is
exported again is found unexpected although it is declared. -/

namespace MethodAssembler.MappingTable

/-- The source PCs of the exported entries, in the order of the table. -/
def exportedPcs (t : MappingTable) : List UInt32 := t.dexToPc.map (·.dexPc)

/-! ### Single comparisons -/

section Steps
variable {entry pc : UInt32} {catches exported : List UInt32}

theorem matchCatches_nil_right :
    matchCatches (entry :: catches) [] = .missingCatchEntry entry :: matchCatches catches [] := by
  simp [matchCatches]

theorem matchCatches_of_lt (h : pc < entry) :
    matchCatches (entry :: catches) (pc :: exported) =
      .unexpectedCatchEntry pc :: matchCatches (entry :: catches) exported := by
  simp [matchCatches, h]

theorem matchCatches_self : matchCatches (pc :: catches) (pc :: exported) = matchCatches catches exported := by
  simp [matchCatches]

theorem matchCatches_of_gt (h : entry < pc) :
    matchCatches (entry :: catches) (pc :: exported) =
      .missingCatchEntry entry :: matchCatches catches (pc :: exported) := by
  simp [matchCatches, UInt32.lt_asymm h, (UInt32.ne_of_lt h).symm]

end Steps

/-- What is found when two ascending lists are compared, from their lowest words on. -/
inductive Compared : (catches exported : List UInt32) → List Diagnostic → Prop
  | nil : Compared [] [] []
  | unexpected {pc : UInt32} {catches exported : List UInt32} {found : List Diagnostic} :
    (∀ entry ∈ catches, pc < entry) → (∀ pc' ∈ exported, pc ≤ pc') → Compared catches exported found →
      Compared catches (pc :: exported) (.unexpectedCatchEntry pc :: found)
  | missing {entry : UInt32} {catches exported : List UInt32} {found : List Diagnostic} :
    (∀ pc ∈ exported, entry < pc) → (∀ entry' ∈ catches, entry ≤ entry') → Compared catches exported found →
      Compared (entry :: catches) exported (.missingCatchEntry entry :: found)
  | answered {pc : UInt32} {catches exported : List UInt32} {found : List Diagnostic} :
    Compared catches exported found → Compared (pc :: catches) (pc :: exported) found

section Comparison
variable {catches exported : List UInt32} {found : List Diagnostic}

theorem compared_matchCatches (hc : catches.Pairwise (· ≤ ·)) (he : exported.Pairwise (· ≤ ·)) :
    Compared catches exported (matchCatches catches exported) := by
  induction catches generalizing exported with
  | nil =>
    induction exported with
    | nil => exact .nil
    | cons pc exported ih =>
      obtain ⟨hpc, he⟩ := List.pairwise_cons.mp he
      exact .unexpected (by simp) hpc (ih he)
  | cons entry catches ih =>
    obtain ⟨hentry, hc'⟩ := List.pairwise_cons.mp hc
    -- The entry stays while lower exports are taken off, so the exports need an induction of their own.
    induction exported with
    | nil =>
      rw [matchCatches_nil_right]
      exact .missing (by simp) hentry (ih hc' .nil)
    | cons pc exported ih' =>
      obtain ⟨hpc, he'⟩ := List.pairwise_cons.mp he
      rcases Std.lt_trichotomy pc entry with hlt | rfl | hgt
      · rw [matchCatches_of_lt hlt]
        refine .unexpected (fun entry' h => ?_) hpc (ih' he')
        rcases List.mem_cons.mp h with rfl | h
        · exact hlt
        · exact UInt32.lt_of_lt_of_le hlt (hentry entry' h)
      · rw [matchCatches_self]
        exact .answered (ih hc' he')
      · rw [matchCatches_of_gt hgt]
        refine .missing (fun pc' h => ?_) hentry (ih hc' he)
        rcases List.mem_cons.mp h with rfl | h
        · exact hgt
        · exact UInt32.lt_of_lt_of_le hgt (hpc pc' h)

theorem count_eq_zero_of_lt {w : UInt32} {words : List UInt32} (h : ∀ x ∈ words, w < x) : words.count w = 0 :=
  List.count_eq_zero.mpr fun hw => UInt32.lt_irrefl w (h w hw)

/-- A PC is missing as often as it is declared more often than exported, and unexpected as often as it is exported more
    often than declared. -/
theorem Compared.counts (h : Compared catches exported found) (pc : UInt32) :
    found.count (.missingCatchEntry pc) = catches.count pc - exported.count pc ∧
      found.count (.unexpectedCatchEntry pc) = exported.count pc - catches.count pc := by
  induction h with
  | nil => exact ⟨rfl, rfl⟩
  | @unexpected pc' catches exported found hlow _ _ ih =>
    -- The PC found is below all entries that are left, so none of them is it.
    by_cases hpc : pc' = pc
    · subst hpc
      have hzero := count_eq_zero_of_lt hlow
      simp [ih, hzero]
    · simp [ih, hpc]
  | @missing entry catches exported found hlow _ _ ih =>
    by_cases hpc : entry = pc
    · subst hpc
      have hzero := count_eq_zero_of_lt hlow
      simp [ih, hzero]
    · simp [ih, hpc]
  | answered _ ih => simp only [List.count_cons, Nat.add_sub_add_right, ih, and_self]

theorem Compared.dexPc_mem (h : Compared catches exported found) {d : Diagnostic} (hd : d ∈ found) :
    d.dexPc ∈ catches ∨ d.dexPc ∈ exported := by
  induction h with
  | nil => cases hd
  | unexpected _ _ _ ih =>
    rcases List.mem_cons.mp hd with rfl | hd
    · exact .inr List.mem_cons_self
    · exact (ih hd).imp_right (List.mem_cons_of_mem _)
  | missing _ _ _ ih =>
    rcases List.mem_cons.mp hd with rfl | hd
    · exact .inl List.mem_cons_self
    · exact (ih hd).imp_left (List.mem_cons_of_mem _)
  | answered _ ih => exact (ih hd).imp (List.mem_cons_of_mem _) (List.mem_cons_of_mem _)

theorem Compared.ascending (h : Compared catches exported found) : found.Pairwise (·.dexPc ≤ ·.dexPc) := by
  induction h with
  | nil => exact .nil
  | unexpected hcatches hexported hrest ih =>
    refine .cons (fun d hd => ?_) ih
    rcases hrest.dexPc_mem hd with hd | hd
    · exact UInt32.le_of_lt (hcatches _ hd)
    · exact hexported _ hd
  | missing hexported hcatches hrest ih =>
    refine .cons (fun d hd => ?_) ih
    rcases hrest.dexPc_mem hd with hd | hd
    · exact hcatches _ hd
    · exact UInt32.le_of_lt (hexported _ hd)
  | answered _ ih => exact ih

theorem Compared.eq_nil_iff (h : Compared catches exported found) : found = [] ↔ exported.Perm catches := by
  rw [List.perm_iff_count]
  constructor
  · rintro rfl pc
    obtain ⟨hmissing, hunexpected⟩ := h.counts pc
    rw [List.count_nil] at hmissing hunexpected
    omega
  · intro hcount
    refine List.eq_nil_iff_forall_not_mem.mpr fun d => List.count_eq_zero.mp ?_
    cases d with
    | unexpectedCatchEntry pc => rw [(h.counts pc).2, hcount, Nat.sub_self]
    | missingCatchEntry pc => rw [(h.counts pc).1, hcount, Nat.sub_self]

end Comparison

/-! ### Findings about a table -/

section Findings
variable (t : MappingTable) (declared : List UInt32)

theorem compared_checkCatches :
    Compared (SortedWords.toSet declared) (SortedWords.sort t.exportedPcs) (t.checkCatches (SortedWords.toSet declared)) :=
  compared_matchCatches ((SortedWords.pairwise_toSet declared).imp UInt32.le_of_lt) (SortedWords.pairwise_sort _)

theorem count_missing_checkCatches (pc : UInt32) :
    (t.checkCatches (SortedWords.toSet declared)).count (.missingCatchEntry pc) =
      (if pc ∈ declared then 1 else 0) - t.exportedPcs.count pc := by
  rw [((compared_checkCatches t declared).counts pc).1, SortedWords.count_toSet, (SortedWords.perm_sort _).count_eq]

theorem count_unexpected_checkCatches (pc : UInt32) :
    (t.checkCatches (SortedWords.toSet declared)).count (.unexpectedCatchEntry pc) =
      t.exportedPcs.count pc - if pc ∈ declared then 1 else 0 := by
  rw [((compared_checkCatches t declared).counts pc).2, SortedWords.count_toSet, (SortedWords.perm_sort _).count_eq]

end Findings

/-- A declared entry that is not exported is missing, once, and nothing else is missing. A PC that is not declared is
    unexpected as often as it is exported. All findings together ascend. -/
theorem checkCatches_complete (t : MappingTable) (declared : List UInt32) :
    (∀ pc, (t.checkCatches (SortedWords.toSet declared)).count (.missingCatchEntry pc) =
      if pc ∈ declared ∧ pc ∉ t.exportedPcs then 1 else 0) ∧
    (∀ pc, pc ∉ declared →
      (t.checkCatches (SortedWords.toSet declared)).count (.unexpectedCatchEntry pc) = t.exportedPcs.count pc) ∧
    (t.checkCatches (SortedWords.toSet declared)).Pairwise (·.dexPc ≤ ·.dexPc) := by
  refine ⟨fun pc => ?_, fun pc hpc => ?_, (compared_checkCatches t declared).ascending⟩
  · rw [count_missing_checkCatches]
    by_cases hexported : pc ∈ t.exportedPcs
    · have hpos := List.count_pos_iff.mpr hexported
      simp only [hexported, not_true_eq_false, and_false, if_false]
      split <;> omega
    · simp [hexported, List.count_eq_zero.mpr hexported]
  · rw [count_unexpected_checkCatches, if_neg hpc, Nat.sub_zero]

example : checkCatches ⟨[], [⟨0, 9⟩, ⟨4, 2⟩, ⟨8, 9⟩, ⟨12, 4⟩]⟩ (SortedWords.toSet [7, 4, 7]) =
    [.unexpectedCatchEntry 2, .missingCatchEntry 7, .unexpectedCatchEntry 9, .unexpectedCatchEntry 9] := rfl

/-- A declared entry is unexpected each time it is exported again, so none is unexpected exactly if none is exported
    twice. Nothing at all is found exactly if the declared entries are exported, each once, and nothing else is. -/
theorem checkCatches_spares_declared_iff (t : MappingTable) (declared : List UInt32) :
    (∀ pc ∈ declared,
      (t.checkCatches (SortedWords.toSet declared)).count (.unexpectedCatchEntry pc) = t.exportedPcs.count pc - 1) ∧
    ((∀ pc ∈ declared, .unexpectedCatchEntry pc ∉ t.checkCatches (SortedWords.toSet declared)) ↔
      ∀ pc ∈ declared, t.exportedPcs.count pc ≤ 1) ∧
    (t.checkCatches (SortedWords.toSet declared) = [] ↔
      t.exportedPcs.Nodup ∧ ∀ pc, pc ∈ t.exportedPcs ↔ pc ∈ declared) := by
  have hcount : ∀ pc ∈ declared, (t.checkCatches (SortedWords.toSet declared)).count (.unexpectedCatchEntry pc) =
      t.exportedPcs.count pc - 1 := fun pc hpc => by
    rw [count_unexpected_checkCatches, if_pos hpc]
  refine ⟨hcount, forall₂_congr fun pc hpc => ?_, ?_⟩
  · rw [← List.count_eq_zero, hcount pc hpc, Nat.sub_eq_zero_iff_le]
  · have hset := SortedWords.nodup_toSet declared
    rw [(compared_checkCatches t declared).eq_nil_iff, (SortedWords.perm_sort _).congr_left]
    constructor
    · intro hperm
      refine ⟨hperm.nodup_iff.mpr hset, fun pc => ?_⟩
      rw [hperm.mem_iff, SortedWords.mem_toSet]
    · rintro ⟨hnodup, hmem⟩
      refine (List.perm_ext_iff_of_nodup hnodup hset).mpr fun pc => ?_
      rw [hmem, SortedWords.mem_toSet]

/-- A table that exports PC 4 twice, with a handler at 4. -/
theorem checkCatches_repeated_export :
    ∃ t, decode #[0x02, 0x00, 0x10, 0x04, 0x08, 0x00] = .ok t ∧ (∀ pc, pc ∈ t.exportedPcs ↔ pc ∈ [(4 : UInt32)]) ∧
      t.checkCatches (SortedWords.toSet [4]) = [.unexpectedCatchEntry 4] :=
  ⟨⟨[], [⟨0x10, 4⟩, ⟨0x18, 4⟩]⟩, rfl, by simp [exportedPcs], rfl⟩

end MethodAssembler.MappingTable
