import MethodAssembler.Proofs.Calls
import MethodAssembler.Proofs.ReferenceMap.Verifier

/-! # Verifier maps of any calls

Safepoints may be declared and references stated in any order and again. Only a register that the method does not have
is refused. The map of the calls that were accepted exists if it fits its format, and it stores what they stated: each
source PC once, in ascending order, with the registers of all calls for it. -/

namespace MethodAssembler.VerifierMap

/-! ### Calls -/

/-- What a verifier map is built with. -/
inductive Call where
  | addSafepoint (dexPc : UInt32)
  | setReference (dexPc : UInt32) (register : Nat)
deriving DecidableEq, Repr

namespace Call

/-- The source PC that a call declares, and the registers that it enters there. -/
def set : Call → ReferenceSet
  | .addSafepoint dexPc => { dexPc }
  | .setReference dexPc register => { dexPc, registers := [register] }

def dexPc (c : Call) : UInt32 := c.set.dexPc

/-- The answer to a call for a method with so many registers. -/
def reply (registers : Nat) : Call → Except Error Unit
  | .addSafepoint _ => .ok ()
  | .setReference _ register =>
    if registers ≤ register then .error (.limitExceeded .referenceRegister register registers) else .ok ()

theorem mem_set_registers {c : Call} {r : Nat} : r ∈ c.set.registers ↔ c = .setReference c.dexPc r := by
  cases c with
  | addSafepoint pc => simp [set]
  | setReference pc register => simp [set, dexPc, eq_comm]

end Call

/-- The calls that are accepted. -/
def made (registers : Nat) (calls : List Call) : List Call := calls.filter fun c => (c.reply registers).isOk

namespace Builder

def call (b : Builder) : Call → Checked Builder
  | .addSafepoint dexPc => .ok (b.addSafepoint dexPc)
  | .setReference dexPc register => b.setReference dexPc register

/-- A builder holds what calls stated. -/
abbrev States (calls : List Call) (registers : Nat) (b : Builder) : Prop :=
  Enters (fun pc => ∃ set ∈ calls.map Call.set, set.dexPc = pc)
    (fun pc r => ∃ set ∈ calls.map Call.set, set.dexPc = pc ∧ r ∈ set.registers) { registers } b

section Calls
variable {registers : Nat} {calls : List Call} {c : Call} {b : Builder}

/-- An accepted call enters its registers, and another one is refused. -/
theorem call_eq (b : Builder) (c : Call) :
    b.call c = match c.reply b.registers with
      | .ok _ => .ok (b.alter c.dexPc (c.set.registers ++ ·))
      | .error e => .error (.refused e) := by
  cases c with
  | addSafepoint => rfl
  | setReference dexPc register =>
    simp only [call, setReference, Call.reply]
    split <;> rfl

theorem States.alter (h : b.States calls registers) (c : Call) :
    (b.alter c.dexPc (c.set.registers ++ ·)).States (calls ++ [c]) registers := by
  have hone : Enters (· = c.dexPc) (fun pc r => pc = c.dexPc ∧ r ∈ c.set.registers) b
      (b.alter c.dexPc (c.set.registers ++ ·)) := enters_alter fun _ _ => List.mem_append
  have hlast : ∀ P : ReferenceSet → Prop,
      (∃ set ∈ (calls ++ [c]).map Call.set, P set) ↔ P c.set ∨ ∃ set ∈ calls.map Call.set, P set := by
    intro P
    simp only [List.map_append, List.mem_append, or_and_right, exists_or, List.map_cons, List.map_nil, List.mem_singleton,
      exists_eq_left]
    exact or_comm
  refine (Enters.trans h hone).congr (fun pc => ?_) fun pc r => ?_
  · rw [hlast, eq_comm]
    rfl
  · rw [hlast, eq_comm]
    rfl

end Calls

/-- What calls leave: a builder that holds what the accepted ones stated, and that they alone would have left. -/
structure Made (registers : Nat) (calls : List Call) (b : Builder) : Prop where
  states : b.States (made registers calls) registers
  alone : (made registers calls).foldlM call { registers } = .ok b

section Made
variable {registers : Nat} {calls : List Call} {b : Builder}

theorem made_nil : Made registers [] { registers } where
  states := (Enters.refl _).congr (by simp [made]) (by simp [made])
  alone := rfl

/-- An accepted call is added to those before it, and another one changes nothing. -/
theorem Made.replies (h : Made registers calls b) (c : Call) :
    Checked.Replies (Made registers (calls ++ [c])) b (c.reply registers) (b.call c) := by
  rw [call_eq, show b.registers = registers from h.states.registers]
  cases hc : c.reply registers with
  | ok =>
    have hmade : made registers (calls ++ [c]) = made registers calls ++ [c] := by
      rw [made, List.filter_append, List.filter_cons_of_pos (by rw [hc]; rfl), List.filter_nil, made]
    refine ⟨rfl, hmade ▸ h.states.alter c, ?_⟩
    rw [hmade, List.foldlM_append, h.alone, Checked.ok_bind, List.foldlM_cons, call_eq,
      show b.registers = registers from h.states.registers, hc]
    rfl
  | error e =>
    have hmade : made registers (calls ++ [c]) = made registers calls := by
      rw [made, List.filter_append, List.filter_cons_of_neg (by rw [hc]; exact Bool.false_ne_true),
        List.filter_nil, List.append_nil, made]
    exact ⟨rfl, hmade ▸ h.states, hmade ▸ h.alone⟩

/-- Calls have the answers that each has by itself. -/
theorem callAll_made (registers : Nat) (calls : List Call) :
    ∃ b, Checked.callAll call calls { registers } = some (calls.map (Call.reply registers), b) ∧
      Made registers calls b := by
  have hstep : ∀ before c, before ++ [c] <+: calls → ∀ b, Made registers before b →
      Checked.Replies (Made registers (before ++ [c])) b (c.reply registers) (call b c) :=
    fun _ c _ _ h => h.replies c
  obtain ⟨b, hrun, hmade⟩ := Checked.callAll_replies hstep made_nil
  have hreplies : (calls.mapIdx fun _ c => c.reply registers) = calls.map (Call.reply registers) :=
    List.ext_getElem? fun i => by rw [List.getElem?_mapIdx, List.getElem?_map]
  exact ⟨b, hreplies ▸ hrun, hmade⟩

end Made

end Builder

/-! ### The map of the calls -/

/-- A map stores what calls stated: their source PCs, each once and in order, and the registers of each. -/
structure Stores (registers : Nat) (calls : List Call) (m : VerifierMap) : Prop where
  pcs : ∃ stored, (List.range m.size).mapM m.dexPcAt = .ok stored ∧ stored.Pairwise (· < ·) ∧
    ∀ pc, pc ∈ stored ↔ ∃ c ∈ calls, c.dexPc = pc
  format : m.format = .compact8 ↔ ∀ c ∈ calls, c.dexPc.toNat ≤ 0xff
  width : m.bitmapWidth = (registers + 7) / 8
  found : ∀ c ∈ calls, ∃ bitmap, m.find? c.dexPc = .ok (some bitmap) ∧ bitmap.size = (registers + 7) / 8 ∧
    ∀ r, hasBit bitmap r = true ↔ .setReference c.dexPc r ∈ calls
  missing : ∀ pc, (∀ c ∈ calls, c.dexPc ≠ pc) → m.find? pc = .ok none

namespace Builder
variable {registers : Nat} {calls : List Call} {b : Builder} {format : PcFormat}

theorem States.declares_iff (h : b.States calls registers) (pc : UInt32) :
    Declares b.entries pc ↔ ∃ c ∈ calls, c.dexPc = pc := by
  simpa [Declares, Call.dexPc] using h.declares pc

/-- The compact format is taken if it has room for the highest source PC. -/
theorem format_eq_compact8 (h : b.format = .ok format) : format = .compact8 ↔ b.highest < 2 ^ 8 := by
  simp only [Builder.format] at h
  split at h
  · cases h
  split at h
  · cases h
  split at h
  · cases h
  cases h
  simp

/-- The source PCs of a map are those of the entries, the lowest first. -/
theorem dexPcs_map (hfits : b.Fits format) :
    (List.range (b.map format).size).mapM (b.map format).dexPcAt = .ok (b.entries.reverse.map (·.1)) := by
  rw [size_map hfits, ← List.length_reverse, ← List.length_map (·.1)]
  refine Checked.mapM_range fun i pc hi => ?_
  rw [List.getElem?_map, Option.map_eq_some_iff] at hi
  obtain ⟨e, he, rfl⟩ := hi
  exact dexPcAt_map hfits he

theorem States.stores_map (h : b.States calls registers)
    (hlisted : ∀ set ∈ calls.map Call.set, ∀ r ∈ set.registers, r < registers) (hformat : b.format = .ok format)
    (hfits : b.Fits format) : (b.map format).Stores registers calls := by
  have hd : Descending b.entries := h.descending List.Pairwise.nil
  have hanswers := answers_map h hlisted hfits
  refine ⟨⟨_, dexPcs_map hfits, ?_, fun pc => ?_⟩, ?_, hanswers.width, fun c hc => ?_, fun pc hpc => ?_⟩
  · exact List.pairwise_map.mpr (List.pairwise_reverse.mpr hd)
  · rw [← h.declares_iff]
    simp [Declares]
  · rw [show (b.map format).format = format from rfl, format_eq_compact8 hformat, highest_lt_iff hd (by decide),
      forall_pcs_iff (P := (·.toNat < 2 ^ 8)) h, List.forall_mem_map]
    exact forall₂_congr fun _ _ => Nat.lt_succ_iff
  · obtain ⟨bitmap, hfind, hsize, hbits⟩ := hanswers.found c.set (List.mem_map_of_mem hc)
    refine ⟨bitmap, hfind, hsize, fun r => (hbits r).trans ?_⟩
    constructor
    · rintro ⟨_, hset, hpc, hr⟩
      obtain ⟨other, hother, rfl⟩ := List.mem_map.mp hset
      rw [Call.mem_set_registers] at hr
      rwa [show c.dexPc = other.dexPc from hpc.symm, ← hr]
    · exact fun hr => ⟨_, List.mem_map_of_mem hr, rfl, List.mem_singleton_self r⟩
  · refine hanswers.missing pc fun set hset => ?_
    obtain ⟨c, hc, rfl⟩ := List.mem_map.mp hset
    exact hpc c hc

/-- A method has the registers of the calls that are accepted. -/
theorem made_listed : ∀ set ∈ (made registers calls).map Call.set, ∀ r ∈ set.registers, r < registers := by
  rw [List.forall_mem_map]
  intro c hc r hr
  obtain ⟨-, hok⟩ := List.mem_filter.mp hc
  rw [Call.mem_set_registers] at hr
  rw [hr] at hok
  simp only [Call.reply] at hok
  split at hok
  · cases hok
  · rename_i hlt
    exact Nat.lt_of_not_le hlt

end Builder

/-- Calls in any order are answered one by one, and those that are refused change nothing. The map of the others can be
    built exactly if it fits the wider format, and then it is accepted and stores what they stated. -/
theorem calls_stored (registers : Nat) (calls : List Call) :
    ∃ b, Checked.callAll Builder.call calls { registers } = some (calls.map (Call.reply registers), b) ∧
      (made registers calls).foldlM Builder.call { registers } = .ok b ∧
      Checked.Decides
        ((registers + 7) / 8 < 2 ^ 13 ∧ ((made registers calls).map Call.dexPc).dedup.length < 2 ^ 16 ∧
          ∀ c ∈ made registers calls, c.dexPc.toNat ≤ 0xffff)
        (fun data => ∃ m, ofBytes data = .ok m ∧ m.Stores registers (made registers calls)) b.build := by
  obtain ⟨b, hrun, hmade⟩ := Builder.callAll_made registers calls
  have hd : Builder.Descending b.entries := hmade.states.descending List.Pairwise.nil
  refine ⟨b, hrun, hmade.alone, ((Builder.format_decides hd).known.bind_ok fun format _ ⟨hformat, hfits⟩ =>
    ⟨_, ofBytes_table hfits, hmade.states.stores_map Builder.made_listed hformat hfits⟩).congr ?_ fun _ _ h => h⟩
  rw [Builder.fits_iff hmade.states, List.map_map, List.forall_mem_map]
  exact and_congr_right' (and_congr_right' (forall₂_congr fun _ _ => Nat.lt_succ_iff))

end MethodAssembler.VerifierMap
