import MethodAssembler.MappingTable.Basic
import MethodAssembler.Proofs.Leb128.Forms

/-! # The grammar of a mapping table

A table is its total count, the count of its first block and then as many pairs of differences as the total says, each
number in any of its forms. It decodes to the running sums of the differences, separately for the two blocks. The bytes of
a table say themselves where they end, so no table is the beginning of another. -/

namespace MethodAssembler.MappingTable

/-! ### The grammar -/

/-- Pairs of differences, one number behind the other. -/
inductive Spelled : List (Nat × Int) → List UInt8 → Prop
  | nil : Spelled [] []
  | cons {n : Nat} {d : Int} {offset dex rest : List UInt8} {pairs : List (Nat × Int)} :
    Leb128.Unsigned offset n → Leb128.Signed dex d → Spelled pairs rest → Spelled ((n, d) :: pairs) (offset ++ dex ++ rest)

/-- A table of pairs of differences, of which the first block has `first`. -/
def IsTable (first : Nat) (pairs : List (Nat × Int)) (bytes : List UInt8) : Prop :=
  first ≤ pairs.length ∧ ∃ total count body, bytes = total ++ count ++ body ∧
    Leb128.Unsigned total pairs.length ∧ Leb128.Unsigned count first ∧ Spelled pairs body

/-- The entry at sums of differences, which are taken modulo `2 ^ 32`. -/
def entryAt (sums : Nat × Int) : MappingEntry := ⟨.ofNat sums.1, .ofInt sums.2⟩

/-- The entries at the running sums of differences. -/
def runningSums (start : Nat × Int) (pairs : List (Nat × Int)) : List MappingEntry :=
  (pairs.scanl (fun sums d => (sums.1 + d.1, sums.2 + d.2)) start).tail.map entryAt

/-- The table that pairs of differences lead to. -/
def ofDifferences (first : Nat) (pairs : List (Nat × Int)) : MappingTable where
  pcToDex := runningSums (0, 0) (pairs.take first)
  dexToPc := runningSums (0, 0) (pairs.drop first)

theorem spelled_append {pairs pairs' : List (Nat × Int)} {bytes : List UInt8} :
    Spelled (pairs ++ pairs') bytes ↔ ∃ front back, bytes = front ++ back ∧ Spelled pairs front ∧ Spelled pairs' back := by
  induction pairs generalizing bytes with
  | nil =>
    refine ⟨fun h => ⟨[], bytes, rfl, .nil, h⟩, ?_⟩
    rintro ⟨_, back, rfl, ⟨⟩, hback⟩
    exact hback
  | cons d pairs ih =>
    constructor
    · intro h
      cases h with
      | @cons n d offset dex rest _ hn hd hrest =>
        obtain ⟨front, back, rfl, hfront, hback⟩ := ih.mp hrest
        exact ⟨offset ++ dex ++ front, back, by simp, .cons hn hd hfront, hback⟩
    · rintro ⟨_, back, rfl, hfront, hback⟩
      cases hfront with
      | @cons n d offset dex front _ hn hd hfront =>
        rw [List.append_assoc]
        exact .cons hn hd (ih.mpr ⟨front, back, rfl, hfront, hback⟩)

theorem IsTable.ne_nil {first : Nat} {pairs : List (Nat × Int)} {bytes : List UInt8} (h : IsTable first pairs bytes) :
    bytes ≠ [] := by
  obtain ⟨-, total, count, body, rfl, htotal, -, -⟩ := h
  rw [List.append_assoc]
  exact List.append_ne_nil_of_left_ne_nil htotal.delimited.ne_nil _

/-! ### Blocks -/

theorem runningSums_cons (start d : Nat × Int) (pairs : List (Nat × Int)) :
    runningSums start (d :: pairs) =
      entryAt (start.1 + d.1, start.2 + d.2) :: runningSums (start.1 + d.1, start.2 + d.2) pairs := by
  rw [runningSums, List.scanl_cons, List.tail_cons]
  cases pairs with
  | nil => simp [runningSums]
  | cons => rw [List.scanl_cons, List.map_cons, runningSums, List.scanl_cons, List.tail_cons]

theorem ofInt_toInt (w : Int32) : UInt32.ofInt w.toInt = w.toUInt32 := by
  have hvalue : (w.toInt % 2 ^ 32).toNat = w.toUInt32.toNat := by
    rw [← UInt32.toNat_toBitVec, ← show BitVec.ofInt 32 w.toInt = w.toUInt32.toBitVec from BitVec.ofInt_toInt]
    exact (BitVec.toNat_ofInt ..).symm
  rw [UInt32.ofInt, hvalue, UInt32.ofNat_toNat]

/-- Adding words to an entry adds their values to the sums. -/
theorem advance_entryAt (sums : Nat × Int) (offset : UInt32) (dex : Int32) :
    advance (entryAt sums) offset dex = entryAt (sums.1 + offset.toNat, sums.2 + dex.toInt) := by
  simp only [advance, entryAt, UInt32.ofNat_add, UInt32.ofNat_toNat, UInt32.ofInt_add, ofInt_toInt]

/-- A block is read off as many spelled pairs as it is asked for, and off nothing else. -/
theorem reads_takeBlock (count : Nat) (start : Nat × Int) :
    Reads (fun form entries => ∃ pairs, pairs.length = count ∧ Spelled pairs form ∧ entries = runningSums start pairs)
      (takeBlock count (entryAt start)) := by
  induction count generalizing start with
  | zero =>
    refine (Reads.pure []).congr fun form entries => ?_
    constructor
    · rintro ⟨rfl, rfl⟩
      exact ⟨[], rfl, .nil, rfl⟩
    · rintro ⟨pairs, hlength, hspelled, rfl⟩
      cases List.length_eq_zero_iff.mp hlength
      cases hspelled
      exact ⟨rfl, rfl⟩
  | succ count ih =>
    have hread : Reads _ (takeBlock (count + 1) (entryAt start)) :=
      Leb128.reads_takeUnsigned.bind fun offset => Leb128.reads_takeSigned.bind fun dex =>
        (advance_entryAt start offset dex ▸ ih (start.1 + offset.toNat, start.2 + dex.toInt)).map
          (advance (entryAt start) offset dex :: ·)
    refine hread.congr fun form entries => ?_
    constructor
    · rintro ⟨w, front, _, rfl, hw, v, middle, back, rfl, hv, _, ⟨pairs, rfl, hspelled, rfl⟩, rfl⟩
      refine ⟨(w.toNat, v.toInt) :: pairs, rfl, List.append_assoc front middle back ▸ .cons hw hv hspelled, ?_⟩
      rw [runningSums_cons, advance_entryAt]
    · rintro ⟨pairs, hlength, hspelled, rfl⟩
      cases hspelled with
      | nil => cases hlength
      -- Spelled numbers fit 32 bits, so they are words that the readers take.
      | @cons n d front middle back pairs hn hd hspelled =>
        obtain ⟨w, rfl⟩ := hn.exists_word
        obtain ⟨v, rfl⟩ := hd.exists_word
        refine ⟨w, front, middle ++ back, List.append_assoc front middle back, hn, v, middle, back, rfl, hd, _,
          ⟨pairs, Nat.succ.inj hlength, hspelled, rfl⟩, ?_⟩
        rw [runningSums_cons, advance_entryAt]

/-! ### Tables -/

/-- Takes a table off the front of a stream. -/
def takeTable (bytes : List UInt8) : Except Malformed (MappingTable × List UInt8) := do
  let (total, bytes) ← Leb128.takeUnsigned bytes
  let (first, bytes) ← Leb128.takeUnsigned bytes
  if total < first then .error (.mappingCounts first.toNat total.toNat)
  else
    let (pcToDex, bytes) ← takeBlock first.toNat ⟨0, 0⟩ bytes
    let (dexToPc, bytes) ← takeBlock (total.toNat - first.toNat) ⟨0, 0⟩ bytes
    return ({ pcToDex, dexToPc }, bytes)

theorem ofBytes_eq {bytes : List UInt8} (h : bytes ≠ []) :
    ofBytes bytes = takeTable bytes >>= fun r =>
      if r.2 ≠ [] then .error (.mappingTrailing r.2.length) else .ok r.1 := by
  rw [ofBytes.eq_2 _ h, takeTable]
  simp only [bind_assoc]
  refine bind_congr fun total => bind_congr fun first => ?_
  split
  · rfl
  simp only [bind_assoc]
  refine bind_congr fun pcToDex => bind_congr fun dexToPc => ?_
  simp only [Checked.pure_eq, Checked.ok_bind]
  split <;> rfl

theorem entryAt_zero : entryAt (0, 0) = ⟨0, 0⟩ := rfl

/-- A table is read off the bytes of the grammar, and off nothing else. -/
theorem reads_takeTable :
    Reads (fun form t => ∃ first pairs, IsTable first pairs form ∧ t = ofDifferences first pairs) takeTable := by
  have hblock := fun count => entryAt_zero ▸ reads_takeBlock count (0, 0)
  have hread : Reads _ takeTable := Leb128.reads_takeUnsigned.bind fun total => Leb128.reads_takeUnsigned.bind fun first =>
    Reads.refuse ((hblock first.toNat).bind fun pcToDex =>
      (hblock (total.toNat - first.toNat)).map (MappingTable.mk pcToDex))
      (total < first) (.mappingCounts first.toNat total.toNat)
  refine hread.congr fun form t => ?_
  constructor
  · rintro ⟨total, totalForm, _, rfl, htotal, first, firstForm, _, rfl, hfirst, hle, _, front, back, rfl,
      ⟨pairs, hpairs, hfront, rfl⟩, _, ⟨pairs', hpairs', hback, rfl⟩, rfl⟩
    rw [UInt32.not_lt, UInt32.le_iff_toNat_le] at hle
    have hlength : (pairs ++ pairs').length = total.toNat := by
      rw [List.length_append, hpairs, hpairs', Nat.add_sub_cancel' hle]
    refine ⟨first.toNat, pairs ++ pairs', ⟨hlength ▸ hle, totalForm, firstForm, front ++ back, by simp, hlength ▸ htotal,
      hfirst, spelled_append.mpr ⟨front, back, rfl, hfront, hback⟩⟩, ?_⟩
    rw [ofDifferences, ← hpairs, List.take_left, List.drop_left]
  · rintro ⟨_, pairs, ⟨hle, totalForm, firstForm, body, rfl, htotal, hfirst, hspelled⟩, rfl⟩
    obtain ⟨total, hlength⟩ := htotal.exists_word
    obtain ⟨first, rfl⟩ := hfirst.exists_word
    -- The first block ends where its count says, in the middle of the pairs.
    rw [← List.take_append_drop first.toNat pairs] at hspelled
    obtain ⟨front, back, rfl, hfront, hback⟩ := spelled_append.mp hspelled
    refine ⟨total, totalForm, _, List.append_assoc .., hlength ▸ htotal, first, firstForm, _, rfl, hfirst,
      ?_, _, front, back,
      rfl, ⟨_, List.length_take_of_le hle, hfront, rfl⟩, _, ⟨_, ?_, hback, rfl⟩, rfl⟩
    · rw [UInt32.not_lt, UInt32.le_iff_toNat_le, ← hlength]
      exact hle
    · rw [List.length_drop, hlength]

theorem ofBytes_eq_ok {bytes : List UInt8} (h : bytes ≠ []) {t : MappingTable} :
    ofBytes bytes = .ok t ↔ takeTable bytes = .ok (t, []) := by
  rw [ofBytes_eq h, Checked.bind_eq_ok]
  constructor
  · rintro ⟨⟨t', rest⟩, htake, hrest⟩
    cases rest with
    | nil => exact Except.ok.inj hrest ▸ htake
    | cons => cases hrest
  · intro htake
    exact ⟨_, htake, rfl⟩

/-- What stands behind a table is noticed. -/
theorem ofBytes_append {bytes extra : List UInt8} (h : bytes ≠ []) {t : MappingTable} (ht : ofBytes bytes = .ok t)
    (hextra : extra ≠ []) : ofBytes (bytes ++ extra) = .error (.mappingTrailing extra.length) := by
  have htake := reads_takeTable.append ((ofBytes_eq_ok h).mp ht) extra
  rw [ofBytes_eq (List.append_ne_nil_of_left_ne_nil h extra), htake, Checked.ok_bind]
  exact if_pos hextra

theorem decode_eq_ok {data : Bytes} {t : MappingTable} : decode data = .ok t ↔ ofBytes data.toList = .ok t := by
  rw [decode]
  cases ofBytes data.toList <;> simp [Checked.ofBytes]

theorem malformed_of_decode {data : Bytes} {fault : Fault} (h : decode data = .error fault) :
    ∃ defect, fault = .refused (.malformed defect) := by
  rw [decode] at h
  cases hbytes : ofBytes data.toList with
  | ok t =>
    rw [hbytes] at h
    cases h
  | error defect =>
    rw [hbytes] at h
    exact ⟨defect, (Except.error.inj h).symm⟩

/-- A table with more behind it is not a table. -/
theorem decode_ne_ok_of_longer {data longer : Bytes} (hne : data ≠ #[]) {t : MappingTable} (h : decode data = .ok t)
    (hlonger : data.toList <+: longer.toList) (hother : longer ≠ data) (t' : MappingTable) : decode longer ≠ .ok t' := by
  intro h'
  obtain ⟨extra, heq⟩ := hlonger
  have hextra : extra ≠ [] := by
    rintro rfl
    exact hother (Array.toList_inj.mp (heq ▸ List.append_nil _))
  have hrefused := ofBytes_append (mt Array.toList_eq_nil_iff.mp hne) (decode_eq_ok.mp h) hextra
  rw [heq, decode_eq_ok.mp h'] at hrefused
  cases hrefused

/-- Decoding accepts no bytes at all and the tables of the grammar, and refuses everything else as malformed. A table is
    neither the beginning of another one nor another one with more behind it. -/
theorem decode_grammar (data : Bytes) :
    (∀ t, decode data = .ok t ↔
      data = #[] ∧ t = {} ∨ ∃ first pairs, IsTable first pairs data.toList ∧ t = ofDifferences first pairs) ∧
    (∀ fault, decode data = .error fault → ∃ defect, fault = .refused (.malformed defect)) ∧
    ∀ t, data ≠ #[] → decode data = .ok t → ∀ other, other ≠ #[] → other ≠ data →
      other.toList <+: data.toList ∨ data.toList <+: other.toList → ∀ t', decode other ≠ .ok t' := by
  refine ⟨fun t => ?_, fun _ => malformed_of_decode, ?_⟩
  · rw [decode_eq_ok]
    by_cases hnil : data = #[]
    · subst hnil
      constructor
      · exact fun h => .inl ⟨rfl, (Except.ok.inj h).symm⟩
      · rintro (⟨-, rfl⟩ | ⟨first, pairs, htable, -⟩)
        · rfl
        · exact absurd rfl htable.ne_nil
    · rw [ofBytes_eq_ok (mt Array.toList_eq_nil_iff.mp hnil), reads_takeTable]
      simp [hnil]
  · rintro t hne h other hne' hother (hshorter | hlonger) t'
    · exact fun h' => decode_ne_ok_of_longer hne' h' hshorter hother.symm t h
    · exact decode_ne_ok_of_longer hne h hlonger hother t'

end MethodAssembler.MappingTable
