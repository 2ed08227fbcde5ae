import MethodAssembler.Proofs.SwitchPayload.Words

/-! # Parsing payloads

Units are taken for a payload exactly if they begin with a known ident and are enough for the cases that they count. Each of
these cases then has a key and a target, and the payload that is built of them again is the units up to the last case. -/

namespace MethodAssembler

/-- The first unit of a payload. -/
def SwitchKind.ident : SwitchKind → UInt16
  | .packed => SwitchPayload.packedIdent
  | .sparse => SwitchPayload.sparseIdent

theorem SwitchKind.ident_inj {kind kind' : SwitchKind} (h : kind.ident = kind'.ident) : kind = kind' := by
  revert h
  cases kind <;> cases kind' <;> decide

/-- How many units a payload takes: two for its header and for each word, which are a key and the targets, or the keys and
    the targets. -/
def SwitchKind.unitCount : SwitchKind → (cases : Nat) → Nat
  | .packed, cases => 4 + 2 * cases
  | .sparse, cases => 2 + 4 * cases

namespace SwitchPayload

/-- The payload that is built of the keys and targets of another. -/
def rebuild (p : SwitchPayload) : Checked SwitchPayload :=
  match p.kind with
  | .packed => return packed (← p.key 0) (← (List.range p.size).mapM p.relativeTarget)
  | .sparse => return sparse (← (List.range p.size).mapM fun i => return (← p.key i, ← p.relativeTarget i))

/-- The units begin with a payload of a kind that counts `count` cases. -/
structure Begins (units : Array UInt16) (kind : SwitchKind) (count : UInt16) : Prop where
  ident : units[0]? = some kind.ident
  cases : units[1]? = some count
  length : kind.unitCount count.toNat ≤ units.size

/-! ### Which units are taken -/

section Parsing
variable {units : Array UInt16} {p : SwitchPayload} {kind : SwitchKind} {count : UInt16}

theorem requireUnits_decides (units : Array UInt16) (needed : Nat) :
    Checked.Decides (needed ≤ units.size) (fun _ => True) (requireUnits units needed) := by
  rw [requireUnits]
  split
  · rename_i hlt
    exact Nat.not_le.mpr hlt
  · rename_i hle
    exact ⟨Nat.not_lt.mp hle, trivial⟩

theorem begins_iff {ident c : UInt16} (hident : units[0]? = some ident) (hcount : units[1]? = some count)
    (kind : SwitchKind) :
    Begins units kind c ↔ ident = kind.ident ∧ c = count ∧ kind.unitCount count.toNat ≤ units.size := by
  constructor
  · rintro ⟨hident', hcount', hlength⟩
    rw [hident] at hident'
    rw [hcount] at hcount'
    cases hident'
    cases hcount'
    exact ⟨rfl, rfl, hlength⟩
  · rintro ⟨rfl, rfl, hlength⟩
    exact ⟨hident, hcount, hlength⟩

/-- Behind the ident of its kind, a payload is taken if it is long enough. -/
theorem length_decides (kind : SwitchKind) (hident : units[0]? = some kind.ident) (hcount : units[1]? = some count) :
    Checked.Decides (∃ kind count, Begins units kind count) (fun p => p.units = units ∧ ∃ count, Begins units p.kind count)
      (requireUnits units (kind.unitCount count.toNat) >>= fun _ => .ok (⟨kind, units⟩ : SwitchPayload)) := by
  have hbegins : kind.unitCount count.toNat ≤ units.size → Begins units kind count := fun hle => ⟨hident, hcount, hle⟩
  refine Checked.Decides.congr (P := kind.unitCount count.toNat ≤ units.size) ?_ ?_ fun _ _ hp => hp
  · exact (requireUnits_decides units _).bind_ok fun _ hle _ => ⟨rfl, count, hbegins hle⟩
  · refine ⟨fun hle => ⟨kind, count, hbegins hle⟩, ?_⟩
    rintro ⟨kind', c, hb⟩
    obtain ⟨hkind, -, hle⟩ := (begins_iff hident hcount kind').mp hb
    exact SwitchKind.ident_inj hkind ▸ hle

/-- Units that are taken are kept as they stand; others are refused. -/
theorem parse_decides (units : Array UInt16) :
    Checked.Decides (∃ kind count, Begins units kind count) (fun p => p.units = units ∧ ∃ count, Begins units p.kind count)
      (parse units) := by
  by_cases hsize : 2 ≤ units.size
  · obtain ⟨ident, hident⟩ : ∃ ident, units[0]? = some ident := ⟨_, Array.getElem?_eq_getElem (by omega)⟩
    obtain ⟨count, hcount⟩ : ∃ count, units[1]? = some count := ⟨_, Array.getElem?_eq_getElem (by omega)⟩
    have hrequire : requireUnits units 2 = .ok () := if_neg (Nat.not_lt.mpr hsize)
    simp only [parse, hrequire, hident, hcount, present_some, Checked.ok_bind, Nat.mul_comm count.toNat]
    split
    · rename_i hpacked
      exact length_decides .packed (hident.trans (congrArg some hpacked)) hcount
    split
    · rename_i hsparse
      exact length_decides .sparse (hident.trans (congrArg some hsparse)) hcount
    · -- Units with another ident begin no payload of either kind.
      rename_i hpacked hsparse
      rintro ⟨kind, c, hb⟩
      have hkind := ((begins_iff hident hcount kind).mp hb).1
      cases kind with
      | packed => exact hpacked hkind
      | sparse => exact hsparse hkind
  · have hrequire : requireUnits units 2 = .error (.refused (.truncatedPayload 2 units.size)) :=
      if_pos (Nat.not_le.mp hsize)
    rw [parse, hrequire]
    rintro ⟨kind, c, hb⟩
    exact hsize (Array.getElem?_eq_some_iff.mp hb.cases).1

/-! ### Building a payload again -/

theorem size_of_begins (h : Begins p.units kind count) : p.size = count.toNat := by
  rw [size, Array.getD_eq_getD_getElem?, h.cases]
  rfl

/-- What is spelled behind the header is the rest of the units. -/
theorem header_of_begins (h : Begins units kind count) {words : List Int32} {length : Nat}
    (hwords : words.flatMap unitsOfWord = (units.toList.drop 2).take length) :
    ([kind.ident, count] ++ words.flatMap unitsOfWord).toArray = units.extract 0 (2 + length) := by
  obtain ⟨hlt, hcases⟩ := Array.getElem?_eq_some_iff.mp h.cases
  obtain ⟨hlt', hident⟩ := Array.getElem?_eq_some_iff.mp h.ident
  have hdrop : units.toList = [kind.ident, count] ++ units.toList.drop 2 := by
    rw [← hident, ← hcases]
    conv_lhs => rw [← List.drop_zero (l := units.toList), List.drop_eq_getElem_cons (by simpa using hlt'),
      List.drop_eq_getElem_cons (by simpa using hlt)]
    rfl
  apply Array.toList_inj.mp
  rw [hwords, Array.toList_extract, hdrop]
  rw [List.extract, Nat.sub_zero, List.drop_zero, Nat.add_comm]
  rfl

theorem rebuild_packed (hk : p.kind = .packed) (h : Begins p.units .packed count) : ∃ cases,
    p.Holds cases ∧ p.rebuild = .ok ⟨.packed, p.units.extract 0 (SwitchKind.packed.unitCount count.toNat)⟩ := by
  have hunitCount : SwitchKind.packed.unitCount count.toNat = 2 + 2 * (count.toNat + 1) := by
    rw [SwitchKind.unitCount]
    omega
  obtain ⟨words, hcount, hunits, hwords⟩ := exists_words (hunitCount ▸ h.length)
  -- A packed payload has one word more than it has cases: its first key.
  obtain ⟨firstKey, targets, rfl⟩ := List.exists_cons_of_length_eq_add_one hcount
  have htargets : targets.length = count.toNat := by simpa using hcount
  have hsize : p.size = targets.length := (size_of_begins h).trans htargets.symm
  have hholds := holds_of_packed_words hk hsize hwords
  have hfirst : p.key 0 = .ok firstKey := by
    rw [key_packed_of_word hk (hwords 0 firstKey rfl), show Int32.ofNat 0 = 0 from rfl, Int32.add_zero]
  have hread : (List.range p.size).mapM p.relativeTarget = .ok targets := by
    rw [hsize]
    refine Checked.mapM_range fun i target htarget => (hholds.case i (firstKey + .ofNat i) target ?_).2
    rw [getElem?_packedCases, htarget]
    rfl
  have hbuilt : (packed firstKey targets).units = p.units.extract 0 (2 + 2 * (count.toNat + 1)) := by
    rw [packed_units, htargets, UInt16.ofNat_toNat]
    exact header_of_begins h hunits
  refine ⟨_, hholds, ?_⟩
  simp only [rebuild, hk, hfirst, hread, Checked.ok_bind, Checked.pure_eq]
  rw [hunitCount, ← hbuilt]
  rfl

theorem rebuild_sparse (hk : p.kind = .sparse) (h : Begins p.units .sparse count) : ∃ cases,
    p.Holds cases ∧ p.rebuild = .ok ⟨.sparse, p.units.extract 0 (SwitchKind.sparse.unitCount count.toNat)⟩ := by
  have hunitCount : SwitchKind.sparse.unitCount count.toNat = 2 + 2 * (count.toNat + count.toNat) := by
    rw [SwitchKind.unitCount]
    omega
  obtain ⟨words, hcount, hunits, hwords⟩ := exists_words (hunitCount ▸ h.length)
  -- the words are as many keys as targets
  obtain ⟨cases, hcases, hlength⟩ : ∃ cases : List (Int32 × Int32),
      cases.map (·.1) ++ cases.map (·.2) = words ∧ cases.length = count.toNat := by
    refine ⟨(words.take count.toNat).zip (words.drop count.toNat), ?_, ?_⟩
    · rw [List.map_fst_zip (by simp; omega), List.map_snd_zip (by simp; omega), List.take_append_drop]
    · simp
      omega
  subst hcases
  have hsize : p.size = cases.length := (size_of_begins h).trans hlength.symm
  have hholds := holds_of_sparse_words hk hsize hwords
  have hread : (List.range p.size).mapM (fun i => do return (← p.key i, ← p.relativeTarget i)) = .ok cases := by
    rw [hsize]
    refine Checked.mapM_range ?_
    rintro i ⟨key, target⟩ hcase
    obtain ⟨hkey, htarget⟩ := hholds.case i key target hcase
    simp only [hkey, htarget, Checked.ok_bind, Checked.pure_eq]
  have hbuilt : (sparse cases).units = p.units.extract 0 (2 + 2 * (count.toNat + count.toNat)) := by
    rw [sparse_units, hlength, UInt16.ofNat_toNat]
    exact header_of_begins h hunits
  refine ⟨cases, hholds, ?_⟩
  simp only [rebuild, hk]
  rw [hread, Checked.ok_bind, hunitCount, ← hbuilt]
  rfl

theorem rebuild_of_begins (h : Begins p.units p.kind count) : ∃ cases,
    p.Holds cases ∧ p.rebuild = .ok ⟨p.kind, p.units.extract 0 (p.kind.unitCount count.toNat)⟩ := by
  cases hk : p.kind with
  | packed => exact rebuild_packed hk (hk ▸ h)
  | sparse => exact rebuild_sparse hk (hk ▸ h)

/-- The units up to the last case count as many cases. -/
theorem size_extract (h : Begins p.units p.kind count) :
    size ⟨p.kind, p.units.extract 0 (p.kind.unitCount count.toNat)⟩ = p.size := by
  have hlt : 1 < p.kind.unitCount count.toNat := by
    cases p.kind with
    | packed => rw [SwitchKind.unitCount]; omega
    | sparse => rw [SwitchKind.unitCount]; omega
  have hlength := h.length
  rw [size_of_begins h, size, Array.getD_eq_getD_getElem?, Array.getElem?_extract, if_pos (by omega), h.cases]
  rfl

end Parsing

/-! ### Accepted payloads -/

/-- A payload is accepted exactly if it counts its cases behind a known ident and is long enough for them. Then every case
    can be read, and building it again leaves out only what stands behind its last case. -/
theorem parse_and_rebuild (units : Array UInt16) :
    ((∃ p, parse units = .ok p) ↔ ∃ count : UInt16, units[1]? = some count ∧
      (units[0]? = some 0x0100 ∧ 4 + 2 * count.toNat ≤ units.size ∨
        units[0]? = some 0x0200 ∧ 2 + 4 * count.toNat ≤ units.size)) ∧
    parse units ≠ .error .trap ∧
    ∀ p, parse units = .ok p →
      p.units = units ∧ units[0]? = some p.kind.ident ∧ units[1]? = some (.ofNat p.size) ∧
      (∀ i < p.size, ∃ key target, p.key i = .ok key ∧ p.relativeTarget i = .ok target) ∧
      ∃ q, p.rebuild = .ok q ∧ q.kind = p.kind ∧ q.units = units.extract 0 (p.kind.unitCount p.size) ∧
        p.kind.unitCount p.size ≤ units.size ∧ q.size = p.size ∧ q.installedSize = p.installedSize := by
  have hdecides := parse_decides units
  refine ⟨⟨?_, ?_⟩, hdecides.ne_trap, ?_⟩
  · rintro ⟨p, hp⟩
    obtain ⟨kind, count, hb⟩ := (hdecides.of_eq_ok hp).1
    refine ⟨count, hb.cases, ?_⟩
    cases kind with
    | packed => exact .inl ⟨hb.ident, hb.length⟩
    | sparse => exact .inr ⟨hb.ident, hb.length⟩
  · rintro ⟨count, hcount, ⟨hident, hlength⟩ | ⟨hident, hlength⟩⟩
    · obtain ⟨p, hp, -⟩ := hdecides.exists_ok ⟨.packed, count, hident, hcount, hlength⟩
      exact ⟨p, hp⟩
    · obtain ⟨p, hp, -⟩ := hdecides.exists_ok ⟨.sparse, count, hident, hcount, hlength⟩
      exact ⟨p, hp⟩
  · intro p hp
    obtain ⟨-, rfl, count, hb⟩ := hdecides.of_eq_ok hp
    have hsize := size_of_begins hb
    obtain ⟨cases, hholds, hrebuild⟩ := rebuild_of_begins hb
    have hcount := size_extract hb
    refine ⟨rfl, hb.ident, by rw [hsize, UInt16.ofNat_toNat]; exact hb.cases, fun i hi => ?_, _, hrebuild,
      rfl, by rw [hsize],
      hsize ▸ hb.length, hcount, ?_⟩
    · have hcase := List.getElem?_eq_getElem (hholds.size ▸ hi)
      exact ⟨_, _, hholds.case i _ _ hcase⟩
    · rw [installedSize, hcount]
      rfl

/-- Keys that pass the greatest word, with a unit behind the last case. -/
theorem parse_and_rebuild_wrapped_keys :
    parse #[0x0100, 2, 0xffff, 0x7fff, 6, 0, 0xfffe, 0xffff, 9] =
      .ok ⟨.packed, #[0x0100, 2, 0xffff, 0x7fff, 6, 0, 0xfffe, 0xffff, 9]⟩ ∧
    key ⟨.packed, #[0x0100, 2, 0xffff, 0x7fff, 6, 0, 0xfffe, 0xffff, 9]⟩ 1 = .ok (-2147483648) ∧
    ∃ q, rebuild ⟨.packed, #[0x0100, 2, 0xffff, 0x7fff, 6, 0, 0xfffe, 0xffff, 9]⟩ = .ok q ∧
      q.units = #[0x0100, 2, 0xffff, 0x7fff, 6, 0, 0xfffe, 0xffff] := by
  have hparse : parse #[0x0100, 2, 0xffff, 0x7fff, 6, 0, 0xfffe, 0xffff, 9] =
    .ok ⟨.packed, #[0x0100, 2, 0xffff, 0x7fff, 6, 0, 0xfffe, 0xffff, 9]⟩ := by decide
  obtain ⟨-, -, -, -, q, hrebuild, -, hunits, -⟩ := (parse_and_rebuild _).2.2 _ hparse
  exact ⟨hparse, by decide, q, hrebuild, hunits⟩

end SwitchPayload

end MethodAssembler
