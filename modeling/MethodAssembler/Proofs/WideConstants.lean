import MethodAssembler.Proofs.LiteralPool

/-! # Wide constants in a pool

A wide constant is found by the names of its two words: the newest literal that holds the low word, the one behind it
holding the high word. The search notes the high word on what it finds and changes nothing else. As later searches go by
values only, they reply as if it had not been made. -/

namespace MethodAssembler.LiteralPool
variable {p q : LiteralPool} {low high : Int32} {id : Nat}

/-! ### Literals by name -/

theorem get_eq_ok {lit : Literal} : p.get id = .ok lit ↔ id < p.size ∧ p.literals[p.size - 1 - id]? = some lit := by
  rw [get]
  split
  · rename_i hid
    rw [present_eq_ok]
    exact ⟨fun h => ⟨hid, h⟩, And.right⟩
  · rename_i hid
    simp [hid]

theorem getElem?_values (p : LiteralPool) (place : Nat) : p.values[place]? = p.literals[place]?.map (·.value) :=
  List.getElem?_map

/-- The literal holds `low`, and the one behind it in the list holds `high`. -/
def HoldsWide (p : LiteralPool) (low high : Int32) (id : LiteralId) : Prop :=
  ∃ lit behind other, p.get id = .ok lit ∧ lit.value = low ∧ next id = some behind ∧ p.get behind = .ok other ∧
    other.value = high

theorem next_eq_some {behind : Nat} : next id = some behind ↔ id = behind + 1 := by
  match id with
  | 0 => simp [next]
  | id + 1 => simp [next]

theorem holdsWide_iff : p.HoldsWide low high id ↔ id < p.size ∧ PairAt low high p.values (p.size - 1 - id) := by
  simp only [PairAt, getElem?_values, Option.map_eq_some_iff]
  constructor
  · rintro ⟨lit, behind, other, hlit, hlow, hnext, hother, hhigh⟩
    obtain ⟨hid, hplace⟩ := get_eq_ok.mp hlit
    obtain ⟨-, hbehind⟩ := get_eq_ok.mp hother
    cases next_eq_some.mp hnext
    have hstep : p.size - 1 - behind = p.size - 1 - (behind + 1) + 1 := by omega
    exact ⟨hid, ⟨lit, hplace, hlow⟩, other, hstep ▸ hbehind, hhigh⟩
  · rintro ⟨hid, ⟨lit, hplace, hlow⟩, other, hbehind, hhigh⟩
    have hlt : p.size - 1 - id + 1 < p.size := (List.getElem?_eq_some_iff.mp hbehind).1
    obtain ⟨behind, rfl⟩ : ∃ behind, id = behind + 1 := ⟨id - 1, by omega⟩
    have hstep : p.size - 1 - (behind + 1) + 1 = p.size - 1 - behind := by omega
    exact ⟨lit, behind, other, get_eq_ok.mpr ⟨hid, hplace⟩, hlow, rfl,
      get_eq_ok.mpr ⟨Nat.lt_of_succ_lt hid, hstep ▸ hbehind⟩, hhigh⟩

theorem PairAt.lt {place : Nat} (h : PairAt low high p.values place) : place < p.size :=
  p.length_values ▸ (List.getElem?_eq_some_iff.mp h.1).1

/-- A pair at a place is found under the name of the place. -/
theorem PairAt.holdsWide {place : Nat} (h : PairAt low high p.values place) : p.HoldsWide low high (p.idAt place) := by
  have hlt := h.lt
  have hname : p.size - 1 - place < p.size := by omega
  refine holdsWide_iff.mpr ⟨hname, ?_⟩
  rw [idAt, Nat.sub_sub_self (Nat.le_sub_one_of_lt hlt)]
  exact h

/-! ### What is found -/

theorem found_eq (p : LiteralPool) (low high : Int32) :
    (p.findWide low high).1 = (findPair low high p.literals).map p.idAt := by
  rw [findWide]
  cases findPair low high p.literals <;> rfl

theorem findWide_eq_none : (p.findWide low high).1 = none ↔ ∀ id, ¬p.HoldsWide low high id := by
  have hfirst := firstPair_findPair low high p.literals
  rw [found_eq, Option.map_eq_none_iff]
  cases hfound : findPair low high p.literals with
  | none =>
    rw [hfound] at hfirst
    exact iff_of_true rfl fun id hid => hfirst _ (holdsWide_iff.mp hid).2
  | some place =>
    rw [hfound] at hfirst
    refine iff_of_false (fun h => ?_) fun hno => hno _ (PairAt.holdsWide hfirst.1)
    cases h

/-- The first pair of the list has the greatest name. -/
theorem newest_of_findWide (h : (p.findWide low high).1 = some id) :
    p.HoldsWide low high id ∧ ∀ other : Nat, p.HoldsWide low high other → other ≤ id := by
  rw [found_eq] at h
  obtain ⟨place, hfound, rfl⟩ := Option.map_eq_some_iff.mp h
  have hfirst := firstPair_findPair low high p.literals
  rw [hfound] at hfirst
  obtain ⟨hpair, hleast⟩ := hfirst
  refine ⟨PairAt.holdsWide hpair, fun other hother => ?_⟩
  obtain ⟨hlt, hpair'⟩ := holdsWide_iff.mp hother
  have hle := hleast _ hpair'
  rw [idAt]
  omega

theorem findWide_eq_some : (p.findWide low high).1 = some id ↔
    p.HoldsWide low high id ∧ ∀ other : Nat, p.HoldsWide low high other → other ≤ id := by
  refine ⟨newest_of_findWide, fun ⟨hid, hnewest⟩ => ?_⟩
  cases hfound : (p.findWide low high).1 with
  | none => exact absurd hid (findWide_eq_none.mp hfound id)
  | some found =>
    obtain ⟨hholds, hnewest'⟩ := newest_of_findWide hfound
    rw [Nat.le_antisymm (hnewest found hholds) (hnewest' id hid)]

/-! ### What is changed -/

theorem estimatedSize_findWide (p : LiteralPool) (low high : Int32) :
    (p.findWide low high).2.estimatedSize = p.estimatedSize := by
  rw [findWide]
  split <;> rfl

/-- Only the literal that is found changes, and of it only what is noted on it. -/
theorem get_findWide (p : LiteralPool) (low high : Int32) (id : Nat) :
    (p.findWide low high).2.get id =
      (p.get id).map fun lit => if (p.findWide low high).1 = some id then { lit with tag := high } else lit := by
  by_cases hid : id < p.size
  · rw [get, get, size_findWide, if_pos hid, if_pos hid]
    cases hfound : findPair low high p.literals with
    | none =>
      simp only [findWide, hfound, reduceCtorEq, if_false]
      exact (id_map (present p.literals[p.size - 1 - id]?)).symm
    | some place =>
      have hfirst := firstPair_findPair low high p.literals
      rw [hfound] at hfirst
      have hplace : place < p.size := PairAt.lt hfirst.1
      have hname : p.size - 1 - place = id ↔ place = p.size - 1 - id := by omega
      simp only [findWide, hfound, Option.some.injEq, idAt, hname, List.getElem?_modify]
      cases p.literals[p.size - 1 - id]? <;> rfl
  · rw [get, get, size_findWide, if_neg hid, if_neg hid]
    rfl

/-! ### Later calls -/

/-- What can be asked of a pool of words. -/
inductive Call where
  | addWord (value : Int32)
  | addWide (low high : Int32)
  | findNear (value : Int32) (tolerance : UInt32)
  | findWide (low high : Int32)

/-- The literal that a call names, and the pool that it leaves. -/
def call (p : LiteralPool) : Call → Checked (Option LiteralId × LiteralPool)
  | .addWord value => (p.addWord value).map fun r => (some r.1, r.2)
  | .addWide low high => (p.addWide low high).map fun r => (some r.1, r.2)
  | .findNear value tolerance => .ok (p.findNear value tolerance, p)
  | .findWide low high => .ok (p.findWide low high)

/-- What calls reply that are made one after the other. -/
def replies : List Call → LiteralPool → Checked (List (Option LiteralId))
  | [], _ => .ok []
  | c :: calls, p => do
    let (reply, p) ← p.call c
    return reply :: (← replies calls p)

/-- Pools that differ at most in offsets and in what is noted on their literals. -/
structure Alike (p q : LiteralPool) : Prop where
  values : p.values = q.values
  estimatedSize : p.estimatedSize = q.estimatedSize

namespace Alike

theorem size (h : Alike p q) : p.size = q.size := by
  rw [← length_values, ← length_values, h.values]

theorem findNear (h : Alike p q) (value : Int32) (tolerance : UInt32) :
    p.findNear value tolerance = q.findNear value tolerance := by
  have hplace : ∀ r : LiteralPool, (r.literals.findIdx? fun lit => (value - lit.value).toUInt32 ≤ tolerance) =
      r.values.findIdx? fun v => (value - v).toUInt32 ≤ tolerance := by
    intro r
    rw [LiteralPool.values, List.findIdx?_map]
    rfl
  have hname : p.idAt = q.idAt := by
    funext place
    rw [idAt, idAt, h.size]
  rw [LiteralPool.findNear, LiteralPool.findNear, hplace, hplace, h.values, hname]

theorem holdsWide (h : Alike p q) : p.HoldsWide low high id ↔ q.HoldsWide low high id := by
  rw [holdsWide_iff, holdsWide_iff, h.values, h.size]

theorem findWide (h : Alike p q) (low high : Int32) : (p.findWide low high).1 = (q.findWide low high).1 := by
  refine Option.ext fun id => ?_
  rw [findWide_eq_some, findWide_eq_some]
  simp only [h.holdsWide]

theorem after_findWide (p : LiteralPool) (low high : Int32) : Alike (p.findWide low high).2 p :=
  ⟨p.values_findWide low high, p.estimatedSize_findWide low high⟩

theorem symm (h : Alike p q) : Alike q p := ⟨h.values.symm, h.estimatedSize.symm⟩

theorem trans {r : LiteralPool} (h : Alike p q) (h' : Alike q r) : Alike p r :=
  ⟨h.values.trans h'.values, h.estimatedSize.trans h'.estimatedSize⟩

theorem addWord (h : Alike p q) (value : Int32) :
    Checked.Agree (fun r s => r.1 = s.1 ∧ Alike r.2 s.2) (p.addWord value) (q.addWord value) := by
  rw [LiteralPool.addWord, LiteralPool.addWord, add, add, h.estimatedSize]
  refine (Checked.Agree.refl _).bind ?_
  rintro size _ rfl
  exact .ok ⟨h.size, congrArg (value :: ·) h.values, rfl⟩

theorem addWide (h : Alike p q) (low high : Int32) :
    Checked.Agree (fun r s => r.1 = s.1 ∧ Alike r.2 s.2) (p.addWide low high) (q.addWide low high) :=
  (h.addWord high).bind fun _ _ hr => hr.2.addWord low

/-- Each call replies alike on both pools, and leaves them alike. -/
theorem call (h : Alike p q) (c : Call) :
    Checked.Agree (fun r s => r.1 = s.1 ∧ Alike r.2 s.2) (p.call c) (q.call c) := by
  cases c with
  | addWord value =>
    rw [LiteralPool.call, LiteralPool.call, ← Checked.bind_ok_eq_map, ← Checked.bind_ok_eq_map]
    exact (h.addWord value).bind fun r s hr => .ok ⟨congrArg some hr.1, hr.2⟩
  | addWide low high =>
    rw [LiteralPool.call, LiteralPool.call, ← Checked.bind_ok_eq_map, ← Checked.bind_ok_eq_map]
    exact (h.addWide low high).bind fun r s hr => .ok ⟨congrArg some hr.1, hr.2⟩
  | findNear value tolerance => exact .ok ⟨h.findNear value tolerance, h⟩
  | findWide low high =>
    exact .ok ⟨h.findWide low high, (after_findWide p low high).trans (h.trans (after_findWide q low high).symm)⟩

theorem replies (h : Alike p q) (calls : List Call) :
    Checked.Agree Eq (LiteralPool.replies calls p) (LiteralPool.replies calls q) := by
  induction calls generalizing p q with
  | nil => exact .ok rfl
  | cons c calls ih =>
    refine (h.call c).bind fun r s hr => (ih hr.2).bind ?_
    rintro rest _ rfl
    exact .ok (congrArg (· :: rest) hr.1)

end Alike

/-! ### The search as a whole -/

/-- A wide constant is found as soon as it is added, also where its words stand in the pool already. -/
theorem findWide_after_addWide {wider : LiteralPool} (h : p.addWide low high = .ok (id, wider)) :
    (wider.findWide low high).1 = some id := by
  obtain ⟨⟨_, p₁⟩, hhigh, hlow⟩ := Checked.bind_eq_ok.mp h
  obtain ⟨size, -, rfl, rfl⟩ := add_eq_ok.mp hlow
  have hvalues : values ⟨{ value := low } :: p₁.literals, size⟩ = low :: high :: p.values := by
    rw [values_addWord hlow, values_addWord hhigh]
  have hpair : PairAt low high (values ⟨{ value := low } :: p₁.literals, size⟩) 0 := by
    rw [hvalues]
    exact ⟨rfl, rfl⟩
  refine findWide_eq_some.mpr ⟨PairAt.holdsWide hpair, fun other hother => ?_⟩
  exact Nat.le_of_lt_succ (holdsWide_iff.mp hother).1

/-- The search for a wide constant names the newest literal that holds the low word and is followed by one that holds
    the high word, and none only if there is none. It notes the high word on that literal; all else of the pool stays as
    it was, and so does every reply to later calls. A constant that was just added is found where it was added. -/
theorem findWide_names_newest (p : LiteralPool) (low high : Int32) :
    (∀ id, (p.findWide low high).1 = some id ↔
      p.HoldsWide low high id ∧ ∀ other, p.HoldsWide low high other → other ≤ id) ∧
    ((p.findWide low high).1 = none ↔ ∀ id, ¬p.HoldsWide low high id) ∧
    ((p.findWide low high).2.size = p.size ∧ (p.findWide low high).2.estimatedSize = p.estimatedSize ∧
      ∀ id, (p.findWide low high).2.get id =
        (p.get id).map fun lit => if (p.findWide low high).1 = some id then { lit with tag := high } else lit) ∧
    (∀ calls, replies calls (p.findWide low high).2 = replies calls p) ∧
    (∀ id wider, p.addWide low high = .ok (id, wider) → (wider.findWide low high).1 = some id) := by
  refine ⟨fun id => findWide_eq_some, findWide_eq_none,
    ⟨p.size_findWide low high, p.estimatedSize_findWide low high, p.get_findWide low high⟩, fun calls => ?_,
    fun id wider => findWide_after_addWide⟩
  exact ((Alike.after_findWide p low high).replies calls).eq

/-- A pool with a low word that stands twice in a row and once at the end. -/
def crowded : LiteralPool := ⟨[{ value := 5 }, { value := 5 }, { value := 7 }, { value := 5 }], 16⟩

/-- The second 5 is found for 7, and none for 7 behind 7. Where 5 is added behind another, the newer one is found. -/
theorem findWide_names_newest_crowded : ∃ id wider,
    replies [.addWord 5, .addWide 5 7, .addWord 5, .findWide 5 7, .findWide 7 7] {} =
      .ok [some 0, some 2, some 3, some 2, none] ∧
    crowded.addWide 5 5 = .ok (id, wider) ∧ (wider.findWide 5 5).1 = some id := by
  have hadd : crowded.addWide 5 5 =
      .ok (5, ⟨{ value := 5 } :: { value := 5 } :: crowded.literals, 24⟩) := rfl
  exact ⟨_, _, rfl, hadd, (findWide_names_newest crowded 5 5).2.2.2.2 _ _ hadd⟩

end MethodAssembler.LiteralPool
