import MethodAssembler.Proofs.CodeImage
import MethodAssembler.Proofs.Filling
import MethodAssembler.Proofs.SwitchPayload.Parsing

/-! # Origins of switch tables

A case is written as the offset of its target less the origin of its table, modulo 32 bits. The origin itself is a sum that
has to fit 32 bits: where the anchor and the advance are too far out for that, the installation traps. Everywhere else the
displacements are exact, and an installation stops only at an image that is already past a table. -/

namespace MethodAssembler

/-! ### Payloads -/

namespace SwitchPayload

/-- The payloads that there are: built of cases, or taken from units. -/
inductive Made : SwitchPayload → Prop where
  | packed (firstKey : Int32) (targets : List Int32) : Made (packed firstKey targets)
  | sparse (cases : List (Int32 × Int32)) : Made (sparse cases)
  | parsed {units : Array UInt16} {p : SwitchPayload} : parse units = .ok p → Made p

/-- Every case that is counted has a key. -/
theorem Made.key {p : SwitchPayload} (h : p.Made) {i : Nat} (hi : i < p.size) : ∃ key, p.key i = .ok key := by
  cases h with
  | packed firstKey targets =>
    obtain ⟨target, htarget⟩ := readable_packed firstKey targets i hi
    exact key_of_relativeTarget htarget
  | sparse cases =>
    obtain ⟨target, htarget⟩ := readable_sparse cases i hi
    exact key_of_relativeTarget htarget
  | parsed hparse =>
    obtain ⟨-, hunits, count, hb⟩ := (parse_decides _).of_eq_ok hparse
    obtain ⟨cases, hholds, -⟩ := rebuild_of_begins (hunits ▸ hb)
    have hcase := List.getElem?_eq_getElem (hholds.size ▸ hi)
    exact ⟨_, (hholds.case i _ _ hcase).1⟩

end SwitchPayload

/-! ### Tables and their origins -/

namespace SwitchTable
variable {l : InstrList} {origin : BranchOrigin} {t : SwitchTable} {n : Nat}

/-- The cases of a table lead to instructions of the list. So does its anchor, which carries a fixup. -/
structure Ready (l : InstrList) (t : SwitchTable) : Prop where
  payload : t.payload.Made
  count : t.targets.size = t.payload.size
  targets : ∀ target ∈ t.targets.toList, ∃ i, l.get target = .ok i
  anchor : ∃ i, t.anchorInstr l = .ok i ∧ i.fixup ≠ .none

theorem Ready.resolved (h : t.Ready l) : t.Resolved l where
  count := h.count
  targets target htarget := by
    obtain ⟨i, hi⟩ := h.targets target htarget
    rw [← l.contents_length]
    exact (List.getElem?_eq_some_iff.mp (InstrList.get_eq_ok.mp hi)).1
  keys _ _ hi := h.payload.key hi

/-- Where displacements are measured from, as a number of any size. -/
def MeasuresFrom (l : InstrList) (t : SwitchTable) : BranchOrigin → (n : Nat) → Prop
  | .anchorPlusAdvance advance, n => ∃ i, t.anchorInstr l = .ok i ∧ n = i.offset.toNat + advance.toNat
  | .anchor, n => ∃ i, t.anchorInstr l = .ok i ∧ n = i.offset.toNat
  | .tableStart, n => n = t.offset.toNat
  | .methodStart, n => n = 0

/-- The origin is that number if it fits 32 bits. Otherwise there is none. -/
theorem origin_of_measuresFrom (h : t.Ready l) (hn : t.MeasuresFrom l origin n) :
    (n < 2 ^ 32 ∧ ∃ base, t.origin l origin = .ok base ∧ base.toNat = n) ∨
      (2 ^ 32 ≤ n ∧ t.origin l origin = .error .trap) := by
  obtain ⟨i, hi, hfixup⟩ := h.anchor
  cases origin with
  | anchorPlusAdvance advance =>
    obtain ⟨_, hanchor, rfl⟩ := hn
    cases hi.symm.trans hanchor
    simp only [SwitchTable.origin, hi, Checked.ok_bind, hfixup, ne_eq, not_false_eq_true, decide_true, require_true]
    rcases Nat.lt_or_ge (i.offset.toNat + advance.toNat) (2 ^ 32) with hlt | hge
    · exact .inl ⟨hlt, addWords_of_lt hlt⟩
    · exact .inr ⟨hge, addWords_trap hge⟩
  | anchor =>
    obtain ⟨_, hanchor, rfl⟩ := hn
    cases hi.symm.trans hanchor
    exact .inl ⟨i.offset.toNat_lt, i.offset, by rw [SwitchTable.origin, hi]; rfl, rfl⟩
  | tableStart =>
    cases hn
    exact .inl ⟨t.offset.toNat_lt, t.offset, rfl, rfl⟩
  | methodStart =>
    cases hn
    exact .inl ⟨by decide, 0, rfl, rfl⟩

theorem exists_measuresFrom (h : t.Ready l) (origin : BranchOrigin) : ∃ n, t.MeasuresFrom l origin n := by
  obtain ⟨i, hi, -⟩ := h.anchor
  cases origin with
  | anchorPlusAdvance advance => exact ⟨_, i, hi, rfl⟩
  | anchor => exact ⟨_, i, hi, rfl⟩
  | tableStart => exact ⟨_, rfl⟩
  | methodStart => exact ⟨_, rfl⟩

/-- The origin of a table is past 32 bits. -/
def Overflows (l : InstrList) (origin : BranchOrigin) (t : SwitchTable) : Prop :=
  ∃ n, t.MeasuresFrom l origin n ∧ 2 ^ 32 ≤ n

theorem origin_eq_trap_of_overflows (h : t.Ready l) (ho : t.Overflows l origin) : t.origin l origin = .error .trap := by
  obtain ⟨n, hn, hge⟩ := ho
  rcases origin_of_measuresFrom h hn with ⟨hlt, -⟩ | ⟨-, htrap⟩
  · exact absurd hge (Nat.not_le.mpr hlt)
  · exact htrap

theorem origin_of_not_overflows (h : t.Ready l) (ho : ¬t.Overflows l origin) : ∃ base, t.origin l origin = .ok base := by
  obtain ⟨n, hn⟩ := exists_measuresFrom h origin
  rcases origin_of_measuresFrom h hn with ⟨-, base, hbase, -⟩ | ⟨hge, -⟩
  · exact ⟨base, hbase⟩
  · exact absurd ⟨n, hn, hge⟩ ho

/-- Case `i` stands in an image as the offset of its target less `n`, modulo 32 bits. -/
def HoldsDisplacement (code : Bytes) (l : InstrList) (t : SwitchTable) (n i : Nat) : Prop :=
  ∃ target instr displacement, t.targets[i]? = some target ∧ l.get target = .ok instr ∧
    HoldsCase code t i displacement ∧ (displacement.toNat : Int) = ((instr.offset.toNat : Int) - (n : Int)) % 2 ^ 32

theorem toNat_displacement (a b : UInt32) : ((a - b).toNat : Int) = ((a.toNat : Int) - (b.toNat : Int)) % 2 ^ 32 := by
  have ha := a.toNat_lt
  have hb := b.toNat_lt
  rw [UInt32.toNat_sub]
  omega

/-- The image of a table holds its displacements. -/
theorem holdsDisplacement_of_image {code : Bytes} (h : t.Ready l) (ho : ¬t.Overflows l origin)
    (hstands : StandsAt code t.offset.toNat (t.image l origin)) (hn : t.MeasuresFrom l origin n) {i : Nat}
    (hi : i < t.payload.size) : HoldsDisplacement code l t n i := by
  rcases origin_of_measuresFrom h hn with ⟨-, base, hbase, rfl⟩ | ⟨hge, -⟩
  · rw [image, hbase] at hstands
    obtain ⟨target, instr, htarget, hinstr, hholds⟩ := MethodUnit.holdsCase_of_image h.resolved hstands hi
    exact ⟨target, instr, _, htarget, hinstr, hholds, toNat_displacement instr.offset base⟩
  · exact absurd ⟨n, hn, hge⟩ ho

end SwitchTable

/-! ### Installing tables -/

/-- Tables one behind the other, the first not before `start`. -/
def TablesFit (start : Nat) : List SwitchTable → Prop
  | [] => True
  | t :: rest => start ≤ t.offset.toNat ∧ TablesFit (t.offset.toNat + t.payload.size * t.payload.caseBytes) rest

section Installing
variable {l : InstrList} {origin : BranchOrigin} {tables : List SwitchTable}

theorem TablesFit.ascends {start : Nat} (l : InstrList) (origin : BranchOrigin) (h : TablesFit start tables)
    (hcount : ∀ t ∈ tables, t.targets.size = t.payload.size) :
    ∃ stop, Ascends start (tables.map fun t => ⟨t.offset, t.image l origin⟩) stop := by
  induction tables generalizing start with
  | nil => exact ⟨start, Nat.le_refl _⟩
  | cons t tables ih =>
    obtain ⟨hstart, hrest⟩ := h
    obtain ⟨stop, hstop⟩ := ih hrest fun t' ht' => hcount t' (List.mem_cons_of_mem _ ht')
    have himage : (t.image l origin).length ≤ t.payload.size * t.payload.caseBytes :=
      SwitchTable.image_length_le (hcount t List.mem_cons_self)
    exact ⟨stop, hstart, hstop.mono (Nat.add_le_add_left himage _) (Nat.le_refl _)⟩

theorem checkOrigins_of_overflow (h : ∀ t ∈ tables, t.Ready l) (ho : ∃ t ∈ tables, t.Overflows l origin) :
    checkOrigins l origin tables = .error .trap := by
  induction tables with
  | nil =>
    obtain ⟨t, ht, -⟩ := ho
    cases ht
  | cons t tables ih =>
    have hready := h t List.mem_cons_self
    rw [checkOrigins_cons]
    by_cases hfirst : t.Overflows l origin
    · rw [SwitchTable.origin_eq_trap_of_overflows hready hfirst]
      rfl
    · obtain ⟨base, hbase⟩ := SwitchTable.origin_of_not_overflows hready hfirst
      obtain ⟨t', ht', hover⟩ := ho
      have hrest : t' ∈ tables := (List.mem_cons.mp ht').resolve_left fun heq => hfirst (heq ▸ hover)
      rw [hbase]
      exact ih (fun t' ht' => h t' (List.mem_cons_of_mem _ ht')) ⟨t', hrest, hover⟩

namespace Image
variable {m m' : Image} {fault : Fault}

/-- A table is refused by an image that is past it, and traps if its origin overflows. -/
theorem installSwitchTable_error {t : SwitchTable} (h : t.Ready l)
    (he : installSwitchTable l origin t m = .error fault m') :
    (∃ reached, fault = .refused (.layoutMismatch .switchTable t.offset reached)) ∨
      (fault = .trap ∧ t.Overflows l origin) := by
  rcases seek_bind_error he with hpast | ⟨m₁, hcases⟩
  · exact .inl hpast
  · simp only [h.count, ne_eq, not_true_eq_false, if_false] at hcases
    by_cases ho : t.Overflows l origin
    · rw [SwitchTable.origin_eq_trap_of_overflows h ho] at hcases
      cases hcases
      exact .inr ⟨rfl, ho⟩
    · -- with an origin, the cases are written whatever the image
      obtain ⟨base, hbase⟩ := SwitchTable.origin_of_not_overflows h ho
      obtain ⟨m₂, hrun, -⟩ := installCases_adds base 0
        { m₁ with events := m₁.events.push (.debug ("Switch table for offset 0x" ++ Text.hex base.toNat)) }
        h.resolved.targets fun hk k hlt => h.resolved.keys hk k (by rw [← h.count]; simpa using hlt)
      rw [hbase] at hcases
      cases hrun.symm.trans hcases

/-- Every displacement of a switch table is exact, measured from wherever the configuration says, unless the origin of a
    table overflows: then the installation traps. Nothing else makes it trap, and an image that is past a table is
    refused. -/
theorem installSwitchTables_exact_unless_overflow (m : Image) (h : ∀ t ∈ tables, t.Ready l) :
    (∀ fault, Stateful.outcome (installSwitchTables tables l origin m) = .error fault →
      (∃ t ∈ tables, ∃ reached, fault = .refused (.layoutMismatch .switchTable t.offset reached)) ∨
        (fault = .trap ∧ ∃ t ∈ tables, t.Overflows l origin)) ∧
    (TablesFit m.code.size tables → (∃ t ∈ tables, t.Overflows l origin) →
      Stateful.outcome (installSwitchTables tables l origin m) = .error .trap) ∧
    (TablesFit m.code.size tables → (∀ t ∈ tables, ¬t.Overflows l origin) →
      ∃ m', installSwitchTables tables l origin m = .ok () m' ∧
        ∀ t ∈ tables, ∀ n, t.MeasuresFrom l origin n → ∀ i < t.payload.size, t.HoldsDisplacement m'.code l n i) := by
  have hfollows : TablesFit m.code.size tables → ∃ stop,
      Ascends m.code.size (tables.map fun t => ⟨t.offset, t.image l origin⟩) stop ∧
      Stateful.Follows (checkOrigins l origin tables)
        (fun _ _ m' => Extends m (tables.map fun t => ⟨t.offset, t.image l origin⟩) (tables.flatMap fun _ => []) m')
        (installSwitchTables tables l origin m) := by
    intro hfit
    obtain ⟨stop, hascends⟩ := hfit.ascends l origin fun t ht => (h t ht).count
    exact ⟨stop, hascends, forM_follows _ _ (fun t ht m hm => installSwitchTable_follows (h t ht).resolved hm) hascends⟩
  refine ⟨fun fault hfault => ?_, fun hfit hover => ?_, fun hfit hno => ?_⟩
  · obtain ⟨m', hrun⟩ := Stateful.exists_of_outcome_error hfault
    obtain ⟨t, ht, m₁, he⟩ := Stateful.forM_error hrun
    rcases installSwitchTable_error (h t ht) he with hpast | ⟨htrap, hover⟩
    · exact .inl ⟨t, ht, hpast⟩
    · exact .inr ⟨htrap, t, ht, hover⟩
  · obtain ⟨stop, -, hruns⟩ := hfollows hfit
    rw [checkOrigins_of_overflow h hover] at hruns
    exact hruns.outcome_of_error
  · obtain ⟨stop, hascends, hruns⟩ := hfollows hfit
    rw [checkOrigins_of_ok fun t ht => SwitchTable.origin_of_not_overflows (h t ht) (hno t ht)] at hruns
    obtain ⟨_, m', hrun, hextends⟩ := hruns.exists_ok
    refine ⟨m', hrun, fun t ht n hn i hi => ?_⟩
    have hstands := Bytes.standsAt_putAll hascends (List.mem_map_of_mem ht)
    rw [← hextends.code] at hstands
    exact SwitchTable.holdsDisplacement_of_image (h t ht) (hno t ht) hstands hn hi

end Image

end Installing

/-! ### An origin that overflows -/

/-- A dispatch at 8 and its only label at 16. -/
def dispatchList : InstrList where
  arena := #[
    { instr := { (Instruction.target 1 0 []).withFixup .switchTable with offset := 8 }, next := some 1, linked := true },
    { instr := { Instruction.pseudo .normalBlockLabel 0 with offset := 16 }, prev := some 0, linked := true }]
  first := some 0
  last := some 1
  length := 2

/-- The table of the dispatch. -/
def dispatchTable : SwitchTable where
  payload := .packed 0 [4]
  dexPc := 0
  anchor := some 0
  targets := #[1]

theorem dispatchTable_ready : dispatchTable.Ready dispatchList where
  payload := .packed 0 [4]
  count := rfl
  targets target htarget := by
    cases List.mem_singleton.mp htarget
    exact ⟨_, rfl⟩
  anchor := ⟨_, rfl, by decide⟩

/-- Measured from four bytes behind the dispatch, the label is four bytes ahead. -/
theorem installSwitchTables_exact_unless_overflow_dispatch : dispatchTable.Ready dispatchList ∧
    ∃ m', Image.installSwitchTables [dispatchTable] dispatchList (.anchorPlusAdvance 4) {} = .ok () m' ∧
      dispatchTable.HoldsDisplacement m'.code dispatchList 12 0 := by
  have hall : ∀ t ∈ [dispatchTable], t.Ready dispatchList := List.forall_mem_singleton.mpr dispatchTable_ready
  have hmeasure : dispatchTable.MeasuresFrom dispatchList (.anchorPlusAdvance 4) 12 := ⟨_, rfl, rfl⟩
  obtain ⟨m', hrun, hholds⟩ :=
    (@Image.installSwitchTables_exact_unless_overflow dispatchList (.anchorPlusAdvance 4) [dispatchTable] {} hall).2.2
      ⟨Nat.zero_le _, trivial⟩ (by
        rintro t ht ⟨n, ⟨i, hi, rfl⟩, hge⟩
        cases List.mem_singleton.mp ht
        cases hi
        exact absurd hge (by decide))
  exact ⟨dispatchTable_ready, m', hrun, hholds dispatchTable List.mem_cons_self 12 hmeasure 0 (by decide)⟩

/-- Measured from four bytes before the dispatch, the label would be twelve bytes ahead, but 8 and 2 ^ 32 - 4 have no
    sum. -/
theorem installSwitchTables_backward_advance : dispatchTable.Ready dispatchList ∧ TablesFit 0 [dispatchTable] ∧
    ({ switchOrigin := some (.anchorPlusAdvance 0xfffffffc) } : Config).branchOrigin = .anchorPlusAdvance 0xfffffffc ∧
    Stateful.outcome (Image.installSwitchTables [dispatchTable] dispatchList (.anchorPlusAdvance 0xfffffffc) {}) =
      .error .trap :=
  ⟨dispatchTable_ready, ⟨Nat.zero_le _, trivial⟩, rfl, rfl⟩

end MethodAssembler
