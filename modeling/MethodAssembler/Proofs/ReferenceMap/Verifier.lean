import Mathlib.Data.List.Dedup
import MethodAssembler.Description.Basic
import MethodAssembler.Proofs.ReferenceMap.Records

/-! # Verifier maps

A builder holds its source PCs in descending order, each once. Entering reference sets declares their PCs and enters their
registers, and the map that is built from them is read back: a search finds the bitmap of a declared PC, and nothing
for any other PC. -/

namespace MethodAssembler.VerifierMap

/-! ### Entries -/

namespace Builder

/-- A source PC has an entry. -/
def Declares (entries : List (UInt32 × List Nat)) (pc : UInt32) : Prop := ∃ registers, (pc, registers) ∈ entries

/-- A register is entered for a source PC. -/
def Refers (entries : List (UInt32 × List Nat)) (pc : UInt32) (register : Nat) : Prop :=
  ∃ registers, (pc, registers) ∈ entries ∧ register ∈ registers

/-- The source PCs descend, so there is one entry for each. -/
def Descending (entries : List (UInt32 × List Nat)) : Prop := entries.Pairwise fun a b => b.1 < a.1

section Entries
variable {entries : List (UInt32 × List Nat)} {dexPc pc : UInt32} {f : List Nat → List Nat} {registers : List Nat}

theorem declares_cons {e : UInt32 × List Nat} : Declares (e :: entries) pc ↔ pc = e.1 ∨ Declares entries pc := by
  simp only [Declares, List.mem_cons, exists_or]
  exact or_congr ⟨fun ⟨_, h⟩ => h ▸ rfl, fun h => ⟨e.2, h ▸ rfl⟩⟩ Iff.rfl

theorem refers_cons {e : UInt32 × List Nat} {r : Nat} :
    Refers (e :: entries) pc r ↔ pc = e.1 ∧ r ∈ e.2 ∨ Refers entries pc r := by
  simp only [Refers, List.mem_cons, or_and_right, exists_or]
  refine or_congr ⟨?_, fun h => ⟨e.2, by rw [h.1], h.2⟩⟩ Iff.rfl
  rintro ⟨_, rfl, hr⟩
  exact ⟨rfl, hr⟩

theorem declares_alterEntry : Declares (alterEntry dexPc f entries) pc ↔ pc = dexPc ∨ Declares entries pc := by
  induction entries with
  | nil => simp [alterEntry, Declares]
  | cons e entries ih =>
    obtain ⟨pc', registers⟩ := e
    rw [alterEntry]
    split
    · rw [declares_cons]
    · split
      · rename_i heq
        rw [declares_cons, declares_cons, heq]
        tauto
      · rw [declares_cons, declares_cons, ih]
        tauto

/-- A change that enters the registers `added` for a source PC enters them for no other. -/
theorem refers_alterEntry {added : List Nat} (hf : ∀ registers r, r ∈ f registers ↔ r ∈ added ∨ r ∈ registers) {r : Nat} :
    Refers (alterEntry dexPc f entries) pc r ↔ pc = dexPc ∧ r ∈ added ∨ Refers entries pc r := by
  induction entries with
  | nil => simp [alterEntry, Refers, hf]
  | cons e entries ih =>
    obtain ⟨pc', registers⟩ := e
    rw [alterEntry]
    split
    · rw [refers_cons, hf]
      simp
    · split
      · rename_i heq
        subst heq
        rw [refers_cons, refers_cons, hf]
        tauto
      · rw [refers_cons, refers_cons, ih]
        tauto

theorem descending_alterEntry (h : Descending entries) : Descending (alterEntry dexPc f entries) := by
  induction entries with
  | nil => exact List.pairwise_singleton _ _
  | cons e entries ih =>
    obtain ⟨pc', registers⟩ := e
    obtain ⟨hhead, htail⟩ := List.pairwise_cons.mp h
    rw [alterEntry]
    split
    · rename_i hlt
      refine List.pairwise_cons.mpr ⟨fun e he => ?_, h⟩
      rcases List.mem_cons.mp he with rfl | he
      · exact hlt
      · exact UInt32.lt_trans (hhead e he) hlt
    · rename_i hle
      split
      · exact List.pairwise_cons.mpr ⟨hhead, htail⟩
      · rename_i hne
        refine List.pairwise_cons.mpr ⟨fun e he => ?_, ih htail⟩
        -- Everything behind the head was there before or is the new source PC, which is lower than the head.
        have hdeclared : Declares (alterEntry dexPc f entries) e.1 := ⟨e.2, he⟩
        rcases declares_alterEntry.mp hdeclared with heq | ⟨old, hold⟩
        · rw [heq]
          exact UInt32.lt_of_le_of_ne (UInt32.not_lt.mp hle) (Ne.symm hne)
        · exact hhead (e.1, old) hold

end Entries

/-! ### Entering reference sets -/

/-- One builder has the entries of another, the source PCs `declared` and the registers `referred`. -/
structure Enters (declared : UInt32 → Prop) (referred : UInt32 → Nat → Prop) (b b' : Builder) : Prop where
  registers : b'.registers = b.registers
  descending : Descending b.entries → Descending b'.entries
  declares : ∀ pc, Declares b'.entries pc ↔ declared pc ∨ Declares b.entries pc
  refers : ∀ pc r, Refers b'.entries pc r ↔ referred pc r ∨ Refers b.entries pc r

section Enters
variable {declared declared' : UInt32 → Prop} {referred referred' : UInt32 → Nat → Prop} {b b' b'' : Builder}
  {dexPc : UInt32} {registers : List Nat}

theorem Enters.refl (b : Builder) : Enters (fun _ => False) (fun _ _ => False) b b where
  registers := rfl
  descending := id
  declares _ := by rw [false_or]
  refers _ _ := by rw [false_or]

theorem Enters.trans (h : Enters declared referred b b') (h' : Enters declared' referred' b' b'') :
    Enters (fun pc => declared' pc ∨ declared pc) (fun pc r => referred' pc r ∨ referred pc r) b b'' where
  registers := h'.registers.trans h.registers
  descending hd := h'.descending (h.descending hd)
  declares pc := by rw [h'.declares, h.declares, or_assoc]
  refers pc r := by rw [h'.refers, h.refers, or_assoc]

theorem Enters.congr (h : Enters declared referred b b') (hd : ∀ pc, declared pc ↔ declared' pc)
    (hr : ∀ pc r, referred pc r ↔ referred' pc r) : Enters declared' referred' b b' where
  registers := h.registers
  descending := h.descending
  declares pc := by rw [h.declares, hd]
  refers pc r := by rw [h.refers, hr]

theorem enters_alter {f : List Nat → List Nat} {added : List Nat}
    (hf : ∀ registers r, r ∈ f registers ↔ r ∈ added ∨ r ∈ registers) :
    Enters (· = dexPc) (fun pc r => pc = dexPc ∧ r ∈ added) b (b.alter dexPc f) where
  registers := rfl
  descending := descending_alterEntry
  declares _ := declares_alterEntry
  refers _ _ := refers_alterEntry hf

theorem setReferences_decides (b : Builder) :
    Checked.Decides (∀ r ∈ registers, r < b.registers)
      (Enters (fun pc => pc = dexPc ∧ registers ≠ []) (fun pc r => pc = dexPc ∧ r ∈ registers) b)
      (registers.foldlM (·.setReference dexPc) b) := by
  induction registers generalizing b with
  | nil => exact ⟨by simp, (Enters.refl b).congr (by simp) (by simp)⟩
  | cons r registers ih =>
    rw [List.foldlM_cons, setReference]
    split
    · rename_i hle
      exact fun h => absurd (h r List.mem_cons_self) (Nat.not_lt.mpr hle)
    · rename_i hlt
      have hone : Enters (· = dexPc) (fun pc x => pc = dexPc ∧ x ∈ [r]) b (b.alter dexPc (r :: ·)) :=
        enters_alter (by simp)
      refine (ih (b.alter dexPc (r :: ·))).congr ?_ fun b' _ hb' => (hone.trans hb').congr ?_ ?_
      · rw [hone.registers, List.forall_mem_cons, and_iff_right (Nat.lt_of_not_le hlt)]
      · intro pc
        simp only [ne_eq, reduceCtorEq, not_false_eq_true, and_true, or_iff_right_iff_imp]
        exact And.left
      · intro pc x
        rw [← and_or_left, List.mem_singleton, List.mem_cons, or_comm]

/-- The registers of reference sets are entered exactly if the method has them all. -/
theorem addReferences_decides (sets : List ReferenceSet) (b : Builder) :
    Checked.Decides (∀ set ∈ sets, ∀ r ∈ set.registers, r < b.registers)
      (Enters (fun pc => ∃ set ∈ sets, set.dexPc = pc)
        (fun pc r => ∃ set ∈ sets, set.dexPc = pc ∧ r ∈ set.registers) b)
      (Description.addReferences sets b) := by
  induction sets generalizing b with
  | nil => exact ⟨by simp, (Enters.refl b).congr (by simp) (by simp)⟩
  | cons set sets ih =>
    have hpoint : Enters (· = set.dexPc) (fun pc r => pc = set.dexPc ∧ r ∈ []) b (b.addSafepoint set.dexPc) :=
      enters_alter (by simp)
    -- A set declares its source PC even if it lists no registers.
    have hset : Checked.Decides _ _ (Description.addReferences (set :: sets) b) :=
      (setReferences_decides (b.addSafepoint set.dexPc)).bind fun b' _ hb' =>
        (ih b').congr (by rw [hb'.registers, hpoint.registers]) fun b'' _ hb'' => (hpoint.trans hb').trans hb''
    refine hset.congr ?_ fun b'' _ hb'' => hb''.congr ?_ ?_
    · rw [hpoint.registers, List.forall_mem_cons]
    · intro pc
      simp only [List.exists_mem_cons_iff, eq_comm (a := pc)]
      rw [or_iff_right_of_imp And.left, or_comm]
    · intro pc r
      simp only [List.exists_mem_cons_iff, List.not_mem_nil, and_false, or_false, eq_comm (a := pc)]
      exact or_comm

end Enters

/-! ### Building -/

section Format
variable {b : Builder} {format : PcFormat}

/-- A map fits its format: the header has room for its sizes, and an entry for its source PC. -/
structure Fits (b : Builder) (format : PcFormat) : Prop where
  width : b.bitmapWidth < 2 ^ 13
  length : b.entries.length < 2 ^ 16
  pcs : ∀ e ∈ b.entries, e.1.toNat < 256 ^ format.pcWidth

theorem highest_lt_iff (hd : Descending b.entries) {bound : Nat} (hb : 0 < bound) :
    b.highest < bound ↔ ∀ e ∈ b.entries, e.1.toNat < bound := by
  rw [highest]
  cases he : b.entries with
  | nil => simpa using hb
  | cons top rest =>
    rw [he] at hd
    have htop := (List.pairwise_cons.mp hd).1
    refine ⟨fun h e hmem => ?_, fun h => h top List.mem_cons_self⟩
    rcases List.mem_cons.mp hmem with rfl | hmem
    · exact h
    · exact Nat.lt_trans (UInt32.lt_iff_toNat_lt.mp (htop e hmem)) h

theorem format_decides (hd : Descending b.entries) :
    Checked.Decides
      (b.bitmapWidth < 2 ^ 13 ∧ b.entries.length < 2 ^ 16 ∧ ∀ e ∈ b.entries, e.1.toNat < 2 ^ 16) (Fits b) b.format := by
  have h16 : b.highest < 2 ^ 16 ↔ ∀ e ∈ b.entries, e.1.toNat < 2 ^ 16 := highest_lt_iff hd (by decide)
  have hformat : Checked.Decides (¬2 ^ 13 ≤ b.bitmapWidth ∧ ¬2 ^ 16 ≤ b.entries.length ∧ ¬2 ^ 16 ≤ b.highest ∧ True)
      (Fits b) b.format := by
    refine .refuse fun hw => .refuse fun hl => .refuse fun hp => ⟨trivial, Nat.lt_of_not_le hw, Nat.lt_of_not_le hl, ?_⟩
    split
    · rename_i hlow
      exact (highest_lt_iff hd (by decide)).mp hlow
    · exact h16.mp (Nat.lt_of_not_le hp)
  refine hformat.congr ?_ fun _ _ h => h
  rw [Nat.not_le, Nat.not_le, Nat.not_le, and_true, h16]

end Format

end Builder

/-! ### Reading a map back -/

section Reading
variable {b : Builder} {format : PcFormat}

/-- The map that a builder makes. -/
def Builder.map (b : Builder) (format : PcFormat) : VerifierMap := { data := b.table format, format }

theorem entryBytes_length (e : UInt32 × List Nat) :
    (b.entryBytes format e.1 e.2).length = format.pcWidth + b.bitmapWidth := by
  rw [Builder.entryBytes, List.length_append, littleEndian_length, Array.length_toList, size_bitmapOf]

theorem bitmapWidth_map (h : b.Fits format) : (b.map format).bitmapWidth = b.bitmapWidth := by
  have hw := h.width
  have hcode : format.toCode < 8 := by cases format <;> decide
  simp only [bitmapWidth, Builder.map, headerByte, Builder.table, Builder.header, List.cons_append,
    Array.getD_eq_getD_getElem?, List.getElem?_toArray, List.getElem?_cons_zero, List.getElem?_cons_succ,
    Option.getD_some, UInt8.toNat_ofNat', Nat.reducePow]
  omega

theorem size_map (h : b.Fits format) : (b.map format).size = b.entries.length := by
  have hl := h.length
  simp only [size, Builder.map, headerByte, Builder.table, Builder.header, List.cons_append,
    Array.getD_eq_getD_getElem?, List.getElem?_toArray, List.getElem?_cons_zero, List.getElem?_cons_succ,
    Option.getD_some, UInt8.toNat_ofNat', Nat.reducePow]
  omega

theorem ofCode_map (h : b.Fits format) : PcFormat.ofCode? (headerByte (b.table format) 0 % 8) = some format := by
  have hw := h.width
  have hcode : headerByte (b.table format) 0 % 8 = format.toCode := by
    have hlt : format.toCode < 8 := by cases format <;> decide
    simp only [headerByte, Builder.table, Builder.header, List.cons_append, Array.getD_eq_getD_getElem?,
      List.getElem?_toArray, List.getElem?_cons_zero, Option.getD_some, UInt8.toNat_ofNat', Nat.reducePow]
    omega
  rw [hcode]
  cases format <;> rfl

theorem entryWidth_map (h : b.Fits format) : (b.map format).entryWidth = format.pcWidth + b.bitmapWidth := by
  rw [entryWidth, bitmapWidth_map h]
  rfl

/-- A map that fits its format is accepted. -/
theorem ofBytes_table (h : b.Fits format) : ofBytes (b.table format) = .ok (b.map format) := by
  have hsize : (b.table format).size = referenceHeaderSize + (b.map format).size * (b.map format).entryWidth := by
    rw [size_map h, entryWidth_map h, ← List.length_reverse]
    exact Bytes.size_records fun e _ => entryBytes_length e
  have hheader : ¬(b.table format).size < referenceHeaderSize := by omega
  simp only [ofBytes, hheader, if_false, ofCode_map h]
  exact if_neg fun hne => hne hsize

theorem entry_map (h : b.Fits format) {i : Nat} {e : UInt32 × List Nat} (he : b.entries.reverse[i]? = some e) :
    (b.map format).entry i = .ok (b.entryBytes format e.1 e.2).toArray := by
  rw [entry, entryWidth_map h]
  exact Bytes.slice_record (fun e _ => entryBytes_length e) he

theorem dexPcAt_map (h : b.Fits format) {i : Nat} {e : UInt32 × List Nat} (he : b.entries.reverse[i]? = some e) :
    (b.map format).dexPcAt i = .ok e.1 := by
  have hpc : e.1.toNat < 256 ^ format.pcWidth :=
    h.pcs e (List.mem_reverse.mp (List.mem_of_getElem? he))
  have hslice : Bytes.slice (b.entryBytes format e.1 e.2).toArray 0 format.pcWidth =
      .ok (littleEndian format.pcWidth e.1.toNat).toArray :=
    Bytes.slice_middle [] _ _ rfl (littleEndian_length _ _).symm
  rw [dexPcAt, entry_map h he, Checked.ok_bind, show (b.map format).format = format from rfl, hslice, Checked.ok_bind,
    ofLittleEndian_littleEndian, Nat.mod_eq_of_lt hpc, UInt32.ofNat_toNat]
  rfl

theorem bitmapAt_map (h : b.Fits format) {i : Nat} {e : UInt32 × List Nat} (he : b.entries.reverse[i]? = some e) :
    (b.map format).bitmapAt i = .ok (bitmapOf b.bitmapWidth e.2) := by
  rw [bitmapAt, entry_map h he, Checked.ok_bind, bitmapWidth_map h, Builder.entryBytes,
    ← List.append_nil (littleEndian _ _ ++ _)]
  exact Bytes.slice_middle _ _ [] (littleEndian_length _ _).symm (size_bitmapOf _ _).symm

theorem findFrom_map (h : b.Fits format) (pc : UInt32) {left i : Nat} (hi : i + left = b.entries.length) :
    (b.map format).findFrom pc left i =
      .ok (((b.entries.reverse.drop i).find? (·.1 = pc)).map (bitmapOf b.bitmapWidth ·.2)) := by
  induction left generalizing i with
  | zero => rw [findFrom, List.drop_eq_nil_of_le (by rw [List.length_reverse]; omega), List.find?_nil, Option.map_none]
  | succ left ih =>
    have hlt : i < b.entries.reverse.length := by rw [List.length_reverse]; omega
    have he := List.getElem?_eq_getElem hlt
    rw [findFrom, dexPcAt_map h he, Checked.ok_bind, List.drop_eq_getElem_cons hlt]
    split
    · rename_i heq
      rw [bitmapAt_map h he, List.find?_cons_of_pos (by rwa [decide_eq_true_iff])]
      rfl
    · rename_i hne
      rw [ih (by omega), List.find?_cons_of_neg (by rwa [decide_eq_true_iff])]

/-- A search answers for the entry with the source PC it is for. -/
theorem find?_map (h : b.Fits format) (pc : UInt32) :
    (b.map format).find? pc = .ok ((b.entries.reverse.find? (·.1 = pc)).map (bitmapOf b.bitmapWidth ·.2)) := by
  rw [find?, size_map h, findFrom_map h pc (Nat.zero_add _), List.drop_zero]

end Reading

/-! ### The map of a method -/

/-- A search has an answer for every source PC: a bitmap of the width of the map for those that are `known`, and none for
    the others. -/
structure Knows (known : UInt32 → Prop) (live : VerifierMap) : Prop where
  found : ∀ pc, known pc → ∃ bitmap, live.find? pc = .ok (some bitmap) ∧ bitmap.size = live.bitmapWidth
  missing : ∀ pc, ¬known pc → live.find? pc = .ok none

/-- A search answers as reference sets say: a source PC that has one has a bitmap of the registers of all its sets. -/
structure Answers (sets : List ReferenceSet) (registers : Nat) (live : VerifierMap) : Prop where
  width : live.bitmapWidth = (registers + 7) / 8
  found : ∀ set ∈ sets, ∃ bitmap, live.find? set.dexPc = .ok (some bitmap) ∧ bitmap.size = (registers + 7) / 8 ∧
    ∀ r, hasBit bitmap r = true ↔ ∃ other ∈ sets, other.dexPc = set.dexPc ∧ r ∈ other.registers
  missing : ∀ pc, (∀ set ∈ sets, set.dexPc ≠ pc) → live.find? pc = .ok none

/-- A bitmap that was found holds the registers of all sets for its source PC. -/
theorem Answers.of_found {sets : List ReferenceSet} {registers : Nat} {live : VerifierMap} (h : live.Answers sets registers)
    {pc : UInt32} {bitmap : Bytes} (hfind : live.find? pc = .ok (some bitmap)) :
    bitmap.size = (registers + 7) / 8 ∧
      ∀ r, hasBit bitmap r = true ↔ ∃ set ∈ sets, set.dexPc = pc ∧ r ∈ set.registers := by
  by_cases hset : ∃ set ∈ sets, set.dexPc = pc
  · obtain ⟨set, hmem, rfl⟩ := hset
    obtain ⟨bitmap', hfind', hbitmap⟩ := h.found set hmem
    rw [hfind] at hfind'
    cases hfind'
    exact hbitmap
  · have hnone := h.missing pc fun set hmem heq => hset ⟨set, hmem, heq⟩
    rw [hfind] at hnone
    cases hnone

theorem Answers.knows {sets : List ReferenceSet} {registers : Nat} {live : VerifierMap} (h : live.Answers sets registers) :
    live.Knows fun pc => ∃ set ∈ sets, set.dexPc = pc where
  found := by
    rintro _ ⟨set, hset, rfl⟩
    obtain ⟨bitmap, hfind, hsize, -⟩ := h.found set hset
    exact ⟨bitmap, hfind, hsize.trans h.width.symm⟩
  missing pc hpc := h.missing pc fun set hset heq => hpc ⟨set, hset, heq⟩

/-- What reference sets must satisfy: the method has their registers, and its registers and the distinct source PCs
    are few enough for the map. -/
structure Accepts (sets : List ReferenceSet) (registers : Nat) : Prop where
  listed : ∀ set ∈ sets, ∀ r ∈ set.registers, r < registers
  registers : registers ≤ 65528
  distinct : (sets.map (·.dexPc)).dedup.length < 2 ^ 16
  pcs : ∀ set ∈ sets, set.dexPc.toNat < 2 ^ 16

namespace Builder
variable {sets : List ReferenceSet} {b b' : Builder}

theorem Descending.nodup_pcs (hd : Descending b.entries) : (b.entries.map (·.1)).Nodup :=
  List.pairwise_map.mpr (hd.imp fun hlt => (UInt32.ne_of_lt hlt).symm)

/-- The registers of a source PC stand in its entry. -/
theorem Descending.refers_iff (hd : Descending b.entries) {pc : UInt32} {registers : List Nat}
    (he : (pc, registers) ∈ b.entries) {r : Nat} : Refers b.entries pc r ↔ r ∈ registers := by
  refine ⟨fun ⟨registers', he', hr⟩ => ?_, fun hr => ⟨registers, he, hr⟩⟩
  have heq : (pc, registers') = (pc, registers) := List.inj_on_of_nodup_map hd.nodup_pcs he' he rfl
  exact (Prod.mk.inj heq).2 ▸ hr

theorem Descending.length_eq (hd : Descending b.entries) {pcs : List UInt32}
    (h : ∀ pc, Declares b.entries pc ↔ pc ∈ pcs) : b.entries.length = pcs.dedup.length := by
  rw [← List.length_map (·.1)]
  refine ((List.perm_ext_iff_of_nodup hd.nodup_pcs pcs.nodup_dedup).mpr fun pc => ?_).length_eq
  rw [List.mem_dedup, ← h]
  simp [Declares]

theorem Descending.find?_eq (hd : Descending b.entries) {e : UInt32 × List Nat} (he : e ∈ b.entries) :
    b.entries.reverse.find? (·.1 = e.1) = some e := by
  cases hfind : b.entries.reverse.find? (·.1 = e.1) with
  | none =>
    rw [List.find?_eq_none] at hfind
    exact absurd (decide_eq_true rfl) (hfind e (List.mem_reverse.mpr he))
  | some e' =>
    have hmem := List.mem_reverse.mp (List.mem_of_find?_eq_some hfind)
    have hpc := List.find?_some hfind
    rw [List.inj_on_of_nodup_map hd.nodup_pcs hmem he (of_decide_eq_true hpc)]

theorem find?_eq_none {entries : List (UInt32 × List Nat)} {pc : UInt32} (h : ¬Declares entries pc) :
    entries.reverse.find? (·.1 = pc) = none := by
  rw [List.find?_eq_none]
  intro e he heq
  exact h ⟨e.2, of_decide_eq_true heq ▸ List.mem_reverse.mp he⟩

/-- What a builder entered is what its map answers. -/
theorem answers_map {format : PcFormat} {registers : Nat}
    (hb : Enters (fun pc => ∃ set ∈ sets, set.dexPc = pc) (fun pc r => ∃ set ∈ sets, set.dexPc = pc ∧ r ∈ set.registers)
      { registers } b) (hlisted : ∀ set ∈ sets, ∀ r ∈ set.registers, r < registers) (h : b.Fits format) :
    Answers sets registers (b.map format) := by
  have hd : Descending b.entries := hb.descending List.Pairwise.nil
  have hdeclares : ∀ pc, Declares b.entries pc ↔ ∃ set ∈ sets, set.dexPc = pc := fun pc => by
    simpa [Declares] using hb.declares pc
  have hrefers : ∀ pc r, Refers b.entries pc r ↔ ∃ set ∈ sets, set.dexPc = pc ∧ r ∈ set.registers := fun pc r => by
    simpa [Refers] using hb.refers pc r
  have hwidth : b.bitmapWidth = (registers + 7) / 8 := by rw [bitmapWidth, hb.registers]
  refine ⟨(bitmapWidth_map h).trans hwidth, fun set hset => ?_, fun pc hpc => ?_⟩
  · obtain ⟨rs, hrs⟩ := (hdeclares set.dexPc).mpr ⟨set, hset, rfl⟩
    -- There is one entry for a source PC, which holds the registers of all its sets.
    have hentered : ∀ r, r ∈ rs ↔ ∃ other ∈ sets, other.dexPc = set.dexPc ∧ r ∈ other.registers := fun r =>
      (hd.refers_iff hrs).symm.trans (hrefers set.dexPc r)
    refine ⟨bitmapOf b.bitmapWidth rs, ?_, (size_bitmapOf _ _).trans hwidth, fun r => ?_⟩
    · rw [find?_map h, hd.find?_eq hrs, Option.map_some]
    · rw [hasBit_bitmapOf (fun r hr => ?_), hentered]
      obtain ⟨other, hother, -, hr⟩ := (hentered r).mp hr
      have hlt := hlisted other hother r hr
      rw [hwidth]
      omega
  · rw [find?_map h, find?_eq_none, Option.map_none]
    rintro hdeclared
    obtain ⟨set, hset, heq⟩ := (hdeclares pc).mp hdeclared
    exact hpc set hset heq

/-- What holds of the source PC of every entry holds of every set's. -/
theorem forall_pcs_iff {P : UInt32 → Prop} {registers : Nat} {referred : UInt32 → Nat → Prop}
    (hb : Enters (fun pc => ∃ set ∈ sets, set.dexPc = pc) referred { registers } b) :
    (∀ e ∈ b.entries, P e.1) ↔ ∀ set ∈ sets, P set.dexPc :=
  calc (∀ e ∈ b.entries, P e.1)
    _ ↔ ∀ pc, Declares b.entries pc → P pc := ⟨fun h _ ⟨_, he⟩ => h _ he, fun h e he => h _ ⟨e.2, he⟩⟩
    _ ↔ ∀ set ∈ sets, P set.dexPc := by simp [hb.declares, show ∀ pc, ¬Declares [] pc by simp [Declares]]

/-- A map can be built if its registers and its distinct source PCs are few enough and the PCs are low enough. -/
theorem fits_iff {registers : Nat}
    (hb : Enters (fun pc => ∃ set ∈ sets, set.dexPc = pc) (fun pc r => ∃ set ∈ sets, set.dexPc = pc ∧ r ∈ set.registers)
      { registers } b) :
    (b.bitmapWidth < 2 ^ 13 ∧ b.entries.length < 2 ^ 16 ∧ ∀ e ∈ b.entries, e.1.toNat < 2 ^ 16) ↔
      (registers + 7) / 8 < 2 ^ 13 ∧ (sets.map (·.dexPc)).dedup.length < 2 ^ 16 ∧
        ∀ set ∈ sets, set.dexPc.toNat < 2 ^ 16 := by
  have hdeclares : ∀ pc, Declares b.entries pc ↔ pc ∈ sets.map (·.dexPc) := fun pc => by
    simpa [Declares] using hb.declares pc
  rw [forall_pcs_iff (P := (·.toNat < 2 ^ 16)) hb, Descending.length_eq (hb.descending List.Pairwise.nil) hdeclares,
    bitmapWidth, show b.registers = registers from hb.registers]

theorem build_decides {registers : Nat}
    (hb : Enters (fun pc => ∃ set ∈ sets, set.dexPc = pc) (fun pc r => ∃ set ∈ sets, set.dexPc = pc ∧ r ∈ set.registers)
      { registers } b) (hlisted : ∀ set ∈ sets, ∀ r ∈ set.registers, r < registers) :
    Checked.Decides (Accepts sets registers) (Answers sets registers) (b.build >>= ofBytes) := by
  have hbuild : Checked.Decides _ (Answers sets registers) (b.format >>= fun format => ofBytes (b.table format)) :=
    (format_decides (hb.descending List.Pairwise.nil)).bind fun format _ hfits => by
      rw [ofBytes_table hfits]
      exact ⟨trivial, answers_map hb hlisted hfits⟩
  rw [build, bind_assoc]
  refine hbuild.congr ?_ fun _ _ h => h
  rw [fits_iff hb, and_true]
  exact ⟨fun ⟨hw, hl, hp⟩ => ⟨hlisted, by omega, hl, hp⟩, fun h => ⟨by have := h.registers; omega, h.distinct, h.pcs⟩⟩

end Builder

/-- The map of a method exists exactly if its reference sets are accepted, and a search in it answers as they say. -/
theorem verifierMap_decides (d : Description) :
    Checked.Decides (Accepts d.references d.frame.registers.toNat) (Answers d.references d.frame.registers.toNat)
      (d.verifierMap >>= ofBytes) := by
  rw [Description.verifierMap, bind_assoc]
  refine ((Builder.addReferences_decides d.references _).bind fun b hlisted hb =>
    Builder.build_decides hb hlisted).congr ?_ fun _ _ h => h
  exact and_iff_right_of_imp Accepts.listed

end MethodAssembler.VerifierMap
