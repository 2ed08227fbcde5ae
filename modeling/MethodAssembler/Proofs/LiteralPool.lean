import Mathlib.Data.List.Dedup
import Mathlib.Data.List.Infix
import MethodAssembler.LiteralPool
import MethodAssembler.Proofs.Words

/-! # Literals in a pool

What searching and adding do to the values of a pool. A word is added unless the pool has it, a wide constant unless its
two words follow each other somewhere, and a pointer unless there is one for its target and kind. -/

namespace MethodAssembler.LiteralPool
variable {p p' : LiteralPool} {id : LiteralId}

/-- The values of the literals, newest first. -/
def values (p : LiteralPool) : List Int32 := p.literals.map (·.value)

/-- The size that the literals are expected to take is the size they take. -/
def Estimated (p : LiteralPool) : Prop := p.estimatedSize.toNat = 4 * p.size

theorem length_values (p : LiteralPool) : p.values.length = p.size := List.length_map _

/-! ### Adding -/

theorem add_eq_ok {lit : Literal} {bytes : UInt32} : p.add lit bytes = .ok (id, p') ↔
    ∃ size, addWords p.estimatedSize bytes = .ok size ∧ id = p.size ∧
      p' = { literals := lit :: p.literals, estimatedSize := size } := by
  simp only [add, Checked.bind_eq_ok, Checked.pure_eq, Except.ok.injEq, Prod.mk.injEq, eq_comm (b := id),
    eq_comm (b := p')]

theorem Estimated.add {lit : Literal} (h : p.Estimated) (ha : p.add lit 4 = .ok (id, p')) : p'.Estimated := by
  obtain ⟨size, hsize, -, rfl⟩ := add_eq_ok.mp ha
  have hadd : size.toNat = p.estimatedSize.toNat + 4 := addWords_eq_ok.mp hsize
  rw [Estimated] at h ⊢
  rw [hadd, h]
  exact (Nat.mul_succ 4 p.size).symm

theorem add_of_lt (h : p.Estimated) (hlt : 4 * (p.size + 1) < 2 ^ 32) (lit : Literal) :
    ∃ id p', p.add lit 4 = .ok (id, p') := by
  obtain ⟨size, hsize, -⟩ := addWords_of_lt (a := p.estimatedSize) (b := 4) (by
    rw [h]
    exact hlt)
  exact ⟨_, _, add_eq_ok.mpr ⟨size, hsize, rfl, rfl⟩⟩

theorem literals_add {lit : Literal} {bytes : UInt32} (h : p.add lit bytes = .ok (id, p')) :
    p'.literals = lit :: p.literals := by
  obtain ⟨_, -, -, rfl⟩ := add_eq_ok.mp h
  rfl

/-! ### Words -/

/-- The values of a pool after a word was asked for. -/
def shareWord (value : Int32) (values : List Int32) : List Int32 :=
  if value ∈ values then values else value :: values

/-- The values of a pool after a wide constant was asked for. -/
def shareWide (low high : Int32) (values : List Int32) : List Int32 :=
  if [low, high] <:+: values then values else low :: high :: values

theorem length_le_shareWord (value : Int32) (values : List Int32) : values.length ≤ (shareWord value values).length := by
  rw [shareWord]
  split
  · exact Nat.le_refl _
  · exact Nat.le_succ _

theorem length_le_shareWide (low high : Int32) (values : List Int32) :
    values.length ≤ (shareWide low high values).length := by
  rw [shareWide]
  split
  · exact Nat.le_refl _
  · exact Nat.le_add_right _ 2

theorem sub_le_zero_iff {a b : Int32} : (a - b).toUInt32 ≤ 0 ↔ b = a := by
  constructor
  · intro h
    have hzero : (a - b).toUInt32 = 0 := UInt32.toNat_inj.mp (Nat.le_zero.mp (UInt32.le_iff_toNat_le.mp h))
    have hsub : a - b = 0 := congrArg UInt32.toInt32 hzero
    rw [← Int32.sub_add_cancel a b, hsub, Int32.zero_add]
  · rintro rfl
    rw [Int32.sub_self]
    exact UInt32.le_refl _

/-- Without tolerance a search finds a value exactly if the pool has it. -/
theorem findNear_zero (p : LiteralPool) (value : Int32) : (p.findNear value 0).isNone = true ↔ value ∉ p.values := by
  simp only [findNear, Option.isNone_map, Option.isNone_iff_eq_none, List.findIdx?_eq_none_iff, decide_eq_false_iff_not,
    sub_le_zero_iff, values, List.mem_map, not_exists, not_and]

/-! ### Wide constants -/

section Pairs
variable {low high : Int32} {values : List Int32} {candidate : Option Nat} {place : Nat}

/-- The values have `low` at a place and `high` right behind it. -/
def PairAt (low high : Int32) (values : List Int32) (place : Nat) : Prop :=
  values[place]? = some low ∧ values[place + 1]? = some high

theorem infix_iff_pairAt : [low, high] <:+: values ↔ ∃ place, PairAt low high values place := by
  rw [List.infix_iff_getElem?]
  constructor
  · rintro ⟨k, -, hvalues⟩
    refine ⟨k, ?_, ?_⟩
    · simpa using hvalues 0 Nat.zero_lt_two
    · simpa [Nat.add_comm] using hvalues 1 Nat.one_lt_two
  · rintro ⟨k, hlow, hhigh⟩
    obtain ⟨hlt, -⟩ := List.getElem?_eq_some_iff.mp hhigh
    refine ⟨k, by simp only [List.length_cons, List.length_nil]; omega, fun i hi => ?_⟩
    match i, hi with
    | 0, _ => simpa using hlow
    | 1, _ => simpa [Nat.add_comm] using hhigh

/-- What is known when a scan has come to a place: the candidate is the value just passed, if that is `low`, and no pair
    lies behind it. -/
structure Scanned (low high : Int32) (values : List Int32) (candidate : Option Nat) (place : Nat) : Prop where
  candidate : ∀ k, candidate = some k ↔ k + 1 = place ∧ values[k]? = some low
  passed : ∀ k, PairAt low high values k → place ≤ k + 1

theorem scanned_zero (low high : Int32) (values : List Int32) : Scanned low high values none 0 where
  candidate k := by simp
  passed k _ := Nat.zero_le _

theorem Scanned.step {value : Int32} (h : Scanned low high values candidate place) (hvalue : values[place]? = some value)
    (hno : ¬(candidate.isSome = true ∧ value = high)) :
    Scanned low high values (if value = low then some place else none) (place + 1) where
  candidate k := by
    constructor
    · intro hk
      split at hk
      · rename_i hlow
        cases hk
        exact ⟨rfl, hlow ▸ hvalue⟩
      · cases hk
    · rintro ⟨hk, hlow⟩
      cases Nat.succ.inj hk
      rw [hvalue] at hlow
      rw [if_pos (Option.some.inj hlow)]
  passed k hk := by
    -- A pair that ends here would have its low word for the candidate.
    refine Nat.succ_le_succ (Nat.le_of_not_lt fun hlt => hno ?_)
    have hplace : k + 1 = place := Nat.le_antisymm hlt (h.passed k hk)
    have hcandidate := (h.candidate k).mpr ⟨hplace, hk.1⟩
    have hhigh := hk.2
    rw [hplace, hvalue] at hhigh
    exact ⟨hcandidate ▸ rfl, Option.some.inj hhigh⟩

/-- A search that gives the place of the first pair, or nothing if there is none. -/
def FirstPair (low high : Int32) (values : List Int32) : Option Nat → Prop
  | some place => PairAt low high values place ∧ ∀ k, PairAt low high values k → place ≤ k
  | none => ∀ k, ¬PairAt low high values k

theorem firstPair_scanPair {rest : List Literal} (h : Scanned low high values candidate place)
    (hrest : values.drop place = rest.map (·.value)) :
    FirstPair low high values (scanPair low high candidate place rest) := by
  induction rest generalizing candidate place with
  | nil =>
    intro k hk
    -- A pair that is left ends at the place reached or behind it, where there are no more words.
    have hlength : values.length ≤ place := List.drop_eq_nil_iff.mp hrest
    have hlt := (List.getElem?_eq_some_iff.mp hk.2).1
    have hpassed := h.passed k hk
    omega
  | cons lit rest ih =>
    have hvalue : values[place]? = some lit.value := by
      rw [← List.head?_drop, hrest]
      rfl
    rw [scanPair]
    split
    · rename_i hfound
      obtain ⟨k, rfl⟩ := Option.isSome_iff_exists.mp hfound.1
      obtain ⟨rfl, hlow⟩ := (h.candidate k).mp rfl
      exact ⟨⟨hlow, hfound.2 ▸ hvalue⟩, fun j hj => Nat.le_of_succ_le_succ (h.passed j hj)⟩
    · rename_i hno
      refine ih (h.step hvalue hno) ?_
      rw [← List.tail_drop, hrest]
      rfl

theorem firstPair_findPair (low high : Int32) (literals : List Literal) :
    FirstPair low high (literals.map (·.value)) (findPair low high literals) :=
  firstPair_scanPair (scanned_zero low high _) rfl

theorem findPair_eq_none {literals : List Literal} :
    findPair low high literals = none ↔ ¬[low, high] <:+: literals.map (·.value) := by
  have hfirst := firstPair_findPair low high literals
  rw [infix_iff_pairAt]
  cases hfound : findPair low high literals with
  | none =>
    rw [hfound] at hfirst
    exact iff_of_true rfl fun ⟨k, hk⟩ => hfirst k hk
  | some place =>
    rw [hfound] at hfirst
    refine iff_of_false (fun h => ?_) fun hno => hno ⟨place, hfirst.1⟩
    cases h

end Pairs

theorem findWide_isNone (p : LiteralPool) (low high : Int32) :
    (p.findWide low high).1.isNone = true ↔ ¬[low, high] <:+: p.values := by
  rw [values, ← findPair_eq_none, findWide]
  cases findPair low high p.literals <;> simp

/-- A search for a wide constant leaves the values as they are. -/
theorem values_findWide (p : LiteralPool) (low high : Int32) : (p.findWide low high).2.values = p.values := by
  rw [findWide]
  split
  · rfl
  · rename_i place _
    refine List.ext_getElem? fun k => ?_
    rw [values, values, List.getElem?_map, List.getElem?_map, List.getElem?_modify]
    cases p.literals[k]? with
    | none => rfl
    | some lit =>
      by_cases hk : place = k
      · simp [hk]
      · simp [hk]

theorem size_findWide (p : LiteralPool) (low high : Int32) : (p.findWide low high).2.size = p.size := by
  rw [← length_values, values_findWide, length_values]

theorem Estimated.findWide (h : p.Estimated) (low high : Int32) : (p.findWide low high).2.Estimated := by
  have hestimate : (p.findWide low high).2.estimatedSize = p.estimatedSize := by
    rw [LiteralPool.findWide]
    split <;> rfl
  rw [Estimated, hestimate, size_findWide]
  exact h

theorem values_addWord {value : Int32} (h : p.addWord value = .ok (id, p')) : p'.values = value :: p.values := by
  rw [values, literals_add h]
  rfl

theorem addWide_eq_ok {low high : Int32} (h : p.Estimated) (ha : p.addWide low high = .ok (id, p')) :
    p'.values = low :: high :: p.values ∧ p'.Estimated := by
  obtain ⟨⟨_, p₁⟩, hhigh, hlow⟩ := Checked.bind_eq_ok.mp ha
  refine ⟨?_, (h.add hhigh).add hlow⟩
  rw [values_addWord hlow, values_addWord hhigh]

theorem addWide_of_lt (h : p.Estimated) (hlt : 4 * (p.size + 2) < 2 ^ 32) (low high : Int32) :
    ∃ id p', p.addWide low high = .ok (id, p') := by
  obtain ⟨_, p₁, hhigh⟩ := add_of_lt h (by omega) { value := high }
  have hsize : p₁.size = p.size + 1 := by rw [size, literals_add hhigh, List.length_cons, size]
  obtain ⟨id, p', hlow⟩ := add_of_lt (h.add hhigh) (by rw [hsize]; omega) { value := low }
  exact ⟨id, p', Checked.bind_eq_ok.mpr ⟨_, hhigh, hlow⟩⟩

/-! ### Pointers -/

/-- How a pool stores the target and the kind of an invocation. -/
def stored (t : UInt32 × InvokeKind) : Int32 × Int32 := (t.1.toInt32, t.2.toOperand)

theorem stored_injective : Function.Injective stored := by
  rintro ⟨target, kind⟩ ⟨target', kind'⟩ h
  obtain ⟨htarget, hkind⟩ := Prod.mk.inj h
  have hkinds : some kind = some kind' := by
    rw [← InvokeKind.ofOperand?_toOperand, ← InvokeKind.ofOperand?_toOperand, hkind]
  rw [show target = target' from congrArg Int32.toUInt32 htarget, Option.some.inj hkinds]

/-- The literals of a pool are pointers, one for each of some targets. -/
def Points (targets : List (UInt32 × InvokeKind)) (p : LiteralPool) : Prop :=
  ∃ distinct : List (UInt32 × InvokeKind), distinct.Nodup ∧ (∀ t, t ∈ distinct ↔ t ∈ targets) ∧
    p.literals.map (fun lit => (lit.value, lit.tag)) = distinct.map stored

section Points
variable {targets : List (UInt32 × InvokeKind)} {target : UInt32} {kind : InvokeKind}

theorem points_empty : Points [] {} := ⟨[], List.nodup_nil, fun _ => Iff.rfl, rfl⟩

theorem Points.size (h : p.Points targets) : p.size = targets.dedup.length := by
  obtain ⟨distinct, hnodup, hmem, hliterals⟩ := h
  have hperm : distinct.Perm targets.dedup :=
    (List.perm_ext_iff_of_nodup hnodup targets.nodup_dedup).mpr fun t => by rw [List.mem_dedup, hmem]
  rw [LiteralPool.size, ← List.length_map, hliterals, List.length_map, hperm.length_eq]

theorem Points.tagged (h : p.Points targets) : ∀ lit ∈ p.literals, (InvokeKind.ofOperand? lit.tag).isSome = true := by
  obtain ⟨distinct, -, -, hliterals⟩ := h
  intro lit hlit
  have hmem : (lit.value, lit.tag) ∈ distinct.map stored := hliterals ▸ List.mem_map_of_mem hlit
  obtain ⟨t, -, ht⟩ := List.mem_map.mp hmem
  rw [← (Prod.mk.inj ht).2, InvokeKind.ofOperand?_toOperand]
  rfl

theorem Points.findPointer (h : p.Points targets) (target : UInt32) (kind : InvokeKind) :
    p.findPointer target kind = none ↔ (target, kind) ∉ targets := by
  obtain ⟨distinct, -, hmem, hliterals⟩ := h
  rw [← hmem, ← List.mem_map_of_injective stored_injective, ← hliterals]
  simp [LiteralPool.findPointer, stored]

theorem Points.sharePointer {size : UInt32} (h : p.Points targets)
    (hs : p.sharePointer target kind size = .ok (id, p')) : p'.Points (targets ++ [(target, kind)]) := by
  have hfind := h.findPointer target kind
  obtain ⟨distinct, hnodup, hmem, hliterals⟩ := h
  rw [LiteralPool.sharePointer] at hs
  split at hs
  · rename_i found
    cases hs
    rw [found] at hfind
    have hold : (target, kind) ∈ targets := Classical.not_not.mp fun hnot => nomatch hfind.mpr hnot
    refine ⟨distinct, hnodup, fun t => ?_, hliterals⟩
    rw [hmem, List.mem_append, List.mem_singleton]
    exact ⟨.inl, fun ht => ht.elim (fun h => h) fun heq => heq ▸ hold⟩
  · rename_i found
    have hnew := hfind.mp found
    refine ⟨(target, kind) :: distinct, List.nodup_cons.mpr ⟨fun hold => hnew ((hmem _).mp hold), hnodup⟩, fun t => ?_, ?_⟩
    · rw [List.mem_cons, hmem, List.mem_append, List.mem_singleton, or_comm]
    · rw [literals_add hs, List.map_cons, List.map_cons, hliterals]
      rfl

theorem Estimated.sharePointer (h : p.Estimated) (hs : p.sharePointer target kind 4 = .ok (id, p')) : p'.Estimated := by
  rw [LiteralPool.sharePointer] at hs
  split at hs
  · cases hs
    exact h
  · exact h.add hs

theorem sharePointer_of_lt (h : p.Estimated) (hp : p.Points targets)
    (hlt : 4 * (targets ++ [(target, kind)]).dedup.length < 2 ^ 32) :
    ∃ id p', p.sharePointer target kind 4 = .ok (id, p') := by
  rw [sharePointer]
  split
  · exact ⟨_, p, rfl⟩
  · rename_i found
    have hnew := (hp.findPointer target kind).mp found
    have hcount : (targets ++ [(target, kind)]).dedup.length = p.size + 1 := by
      rw [(List.perm_append_singleton _ targets).dedup.length_eq, List.dedup_cons_of_notMem hnew, List.length_cons,
        ← hp.size]
    exact add_of_lt h (hcount ▸ hlt) _

end Points

end MethodAssembler.LiteralPool
