import MethodAssembler.Proofs.Acceptance.Filling
import MethodAssembler.Proofs.StreamLayout

/-! # Which switches can be resolved

Every case must lead to a label of the stream, and a verbose assembly needs room for a label of each case. Where
displacements are measured from the dispatching instruction, every table must have one. -/

namespace MethodAssembler

/-! ### Cases -/

/-- The stream has a label where a case of a switch at `dexPc` leads to. -/
def SwitchPayload.HasLabel (items : List StreamItem) (dexPc : UInt32) (p : SwitchPayload) (i : Nat) : Prop :=
  ∃ target, p.relativeTarget i = .ok target ∧ StreamItem.label (dexPc + target.toUInt32) ∈ items

theorem lookup_isSome_iff {α β : Type} [BEq α] [LawfulBEq α] {entries : List (α × β)} {key : α} :
    (entries.lookup key).isSome = true ↔ ∃ value, (key, value) ∈ entries := by
  constructor
  · intro h
    obtain ⟨value, hvalue⟩ := Option.isSome_iff_exists.mp h
    exact ⟨value, Labelling.mem_of_lookup hvalue⟩
  · rintro ⟨value, hmem⟩
    cases hlookup : entries.lookup key with
    | none => simpa using List.lookup_eq_none_iff.mp hlookup (key, value) hmem
    | some _ => rfl

namespace Labelling
variable {items : List StreamItem} {config : Config} {s : Draft} {t : SwitchTable} {count : Nat}

theorem caseTarget_decides (h : s.Of items) (hr : t.payload.Readable) {i : Nat} (hi : i < t.payload.size) :
    Checked.Decides (t.payload.HasLabel items t.dexPc i) (fun _ => True) ((s.labelling config).caseTarget t i) := by
  obtain ⟨target, htarget⟩ := hr i hi
  have hpc : t.caseDexPc i = .ok (t.dexPc + target.toUInt32) := by rw [SwitchTable.caseDexPc, htarget]; rfl
  have hlabel : t.payload.HasLabel items t.dexPc i ↔ (s.labels.lookup (t.dexPc + target.toUInt32)).isSome = true := by
    rw [lookup_isSome_iff, h.labelled, SwitchPayload.HasLabel, htarget]
    simp
  rw [hlabel, caseTarget, hpc, Checked.ok_bind, Draft.labelling]
  cases hlookup : s.labels.lookup (t.dexPc + target.toUInt32) with
  | none => exact Bool.false_ne_true
  | some label => simp [Checked.Decides]

theorem reserveCase_decides (hw : Within config.maxInstructions count) :
    Checked.Decides (Within config.maxInstructions (count + config.verbose.toNat))
      (fun n => n = count + config.verbose.toNat)
      ((s.labelling config).reserveCase count) := by
  rw [reserveCase, Draft.labelling]
  cases config.verbose with
  | false => exact ⟨hw, rfl⟩
  | true => exact InstrList.reserve_decides config.maxInstructions count

theorem caseTargets_decides (h : s.Of items) (hr : t.payload.Readable) {left i : Nat} (hi : i + left ≤ t.payload.size)
    (hw : Within config.maxInstructions count) :
    Checked.Decides ((∀ k, i ≤ k → k < i + left → t.payload.HasLabel items t.dexPc k) ∧
        Within config.maxInstructions (count + config.verbose.toNat * left))
      (fun r => r.2 = count + config.verbose.toNat * left) ((s.labelling config).caseTargets t left i count) := by
  induction left generalizing i count with
  | zero => exact ⟨⟨fun k hk hlt => absurd hlt (by omega), hw⟩, rfl⟩
  | succ left ih =>
    have hrest : ∀ n, Within config.maxInstructions (count + config.verbose.toNat) → n = count + config.verbose.toNat →
        Checked.Decides ((∀ k, i + 1 ≤ k → k < i + 1 + left → t.payload.HasLabel items t.dexPc k) ∧
            Within config.maxInstructions (count + config.verbose.toNat + config.verbose.toNat * left))
          (fun r => r.2 = count + config.verbose.toNat + config.verbose.toNat * left)
          ((s.labelling config).caseTargets t left (i + 1) n) := by
      rintro _ hwithin rfl
      exact ih (by omega) hwithin
    have hsum : count + config.verbose.toNat * (left + 1) = count + config.verbose.toNat + config.verbose.toNat * left := by
      rw [Nat.mul_succ]
      omega
    rw [hsum]
    refine ((caseTarget_decides h hr (by omega)).bind fun label _ _ => (reserveCase_decides hw).bind fun n hn heq =>
      (hrest n hn heq).bind_ok fun r _ hr => hr).congr ?_ fun _ _ hr => hr
    -- The limit is checked case by case, but the count behind the last case is the greatest.
    constructor
    · rintro ⟨hlabel, -, hlabels, hwithin⟩
      refine ⟨fun k hk hlt => ?_, hwithin⟩
      rcases Nat.eq_or_lt_of_le hk with rfl | hk
      · exact hlabel
      · exact hlabels k hk (by omega)
    · rintro ⟨hlabels, hwithin⟩
      exact ⟨hlabels i (Nat.le_refl _) (by omega), hwithin.mono (Nat.le_add_right _ _),
        fun k hk hlt => hlabels k (by omega) (by omega), hwithin⟩

theorem tableTargets_decides (h : s.Of items) {tables : List SwitchTable} (hr : ∀ t ∈ tables, t.payload.Readable)
    (hw : Within config.maxInstructions count) :
    Checked.Decides ((∀ t ∈ tables, ∀ k < t.payload.size, t.payload.HasLabel items t.dexPc k) ∧
        Within config.maxInstructions (count + config.verbose.toNat * (tables.map (·.payload.size)).sum))
      (fun _ => True) ((s.labelling config).tableTargets tables count) := by
  induction tables generalizing count with
  | nil => exact ⟨⟨nofun, hw⟩, trivial⟩
  | cons t tables ih =>
    have hcases := @caseTargets_decides items config s t count h (hr t List.mem_cons_self) t.payload.size 0 (by omega) hw
    have hrest : ∀ r : List InstrId × Nat,
        Within config.maxInstructions (count + config.verbose.toNat * t.payload.size) →
          r.2 = count + config.verbose.toNat * t.payload.size →
        Checked.Decides ((∀ t ∈ tables, ∀ k < t.payload.size, t.payload.HasLabel items t.dexPc k) ∧
            Within config.maxInstructions (count + config.verbose.toNat * t.payload.size +
              config.verbose.toNat * (tables.map (·.payload.size)).sum))
          (fun _ => True) ((s.labelling config).tableTargets tables r.2) := by
      intro r hwithin heq
      rw [heq]
      exact ih (fun t ht => hr t (List.mem_cons_of_mem _ ht)) hwithin
    refine (hcases.bind (R := fun _ => True) fun r hp heq =>
      (hrest r hp.2 heq).bind_ok fun _ _ _ => trivial).congr ?_ fun _ _ _ => trivial
    rw [List.map_cons, List.sum_cons, Nat.mul_add, ← Nat.add_assoc, List.forall_mem_cons]
    constructor
    · rintro ⟨⟨hlabels, -⟩, htables, hwithin⟩
      exact ⟨⟨fun k hk => hlabels k (Nat.zero_le _) (by omega), htables⟩, hwithin⟩
    · rintro ⟨⟨hlabels, htables⟩, hwithin⟩
      exact ⟨⟨fun k _ hk => hlabels k (by omega), hwithin.mono (Nat.le_add_right _ _)⟩, htables, hwithin⟩

end Labelling

/-! ### Origins -/

/-- What the anchors of tables must be like for every origin to be told: instructions that need a fixup, and after which
    the code goes on. -/
def SwitchTable.Anchored (r : InstrList) (t : SwitchTable) : Prop :=
  ∀ id, t.anchor = some id → ∃ i, r.contents[id]? = some i ∧ i.fixup ≠ .none ∧ i.offset.toNat + 4 < 2 ^ 32

theorem SwitchTable.anchorInstr_decides {r : InstrList} {t : SwitchTable} (h : t.Anchored r) :
    Checked.Decides (t.anchor ≠ none) (fun i => i.fixup ≠ .none ∧ i.offset.toNat + 4 < 2 ^ 32) (t.anchorInstr r) := by
  rw [anchorInstr]
  cases ha : t.anchor with
  | none => exact fun hne => hne rfl
  | some id =>
    obtain ⟨i, hi, hfixup, hlt⟩ := h id ha
    show Checked.Decides _ _ (r.get id)
    rw [InstrList.get_eq_ok.mpr hi]
    exact ⟨Option.some_ne_none id, hfixup, hlt⟩

/-- The instruction sets that measure from an anchor need one; x86 measures from the start of the method. -/
theorem SwitchTable.origin_decides {r : InstrList} {t : SwitchTable} (h : t.Anchored r) (set : InstructionSet) :
    Checked.Decides (set ≠ .x86 → t.anchor ≠ none) (fun _ => True) (t.origin r set.branchOrigin) := by
  have hanchor := anchorInstr_decides h
  cases set with
  | thumb2 =>
    have hthumb2 : ∀ i : Instruction, t.anchor ≠ none → i.fixup ≠ .none ∧ i.offset.toNat + 4 < 2 ^ 32 →
        Checked.Decides True (fun _ : UInt32 => True) (require (i.fixup ≠ .none) >>= fun _ => addWords i.offset 4) := by
      rintro i - ⟨hfixup, hlt⟩
      obtain ⟨sum, hsum, -⟩ := addWords_of_lt (a := i.offset) (b := 4) hlt
      rw [decide_eq_true hfixup, require_true, Checked.ok_bind, hsum]
      exact ⟨trivial, trivial⟩
    exact (hanchor.bind hthumb2).congr (by simp) fun _ _ _ => trivial
  | mips => exact (hanchor.bind_ok (R := fun _ => True) fun _ _ _ => trivial).congr (by simp) fun _ _ _ => trivial
  | x86 => exact ⟨fun hne => absurd rfl hne, trivial⟩

theorem checkOrigins_decides {r : InstrList} {tables : List SwitchTable} (h : ∀ t ∈ tables, t.Anchored r)
    (set : InstructionSet) :
    Checked.Decides (set ≠ .x86 → ∀ t ∈ tables, t.anchor ≠ none) (fun _ => True)
      (checkOrigins r set.branchOrigin tables) := by
  induction tables with
  | nil => exact ⟨fun _ => nofun, trivial⟩
  | cons t tables ih =>
    have hfirst : Checked.Decides (set ≠ .x86 → t.anchor ≠ none) (fun _ => True)
        ((t.origin r set.branchOrigin).map fun _ => ()) := by
      rw [← Checked.bind_ok_eq_map]
      exact (SwitchTable.origin_decides (h t List.mem_cons_self) set).bind_ok fun _ _ _ => trivial
    have hrest := ih fun t ht => h t (List.mem_cons_of_mem _ ht)
    refine (hfirst.bind fun _ _ _ => hrest).congr ?_ fun _ _ _ => trivial
    simp only [List.forall_mem_cons, imp_and]

end MethodAssembler
