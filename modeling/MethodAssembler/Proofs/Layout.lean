import MethodAssembler.Layout
import MethodAssembler.Proofs.Placement

/-! # Data layouts

Literals, switch tables and fill-arrays are laid out by one scheme: each item gets the offset reached, and the next one
follows as far behind as the item is large (`arrange`). All sizes are multiples of four, so every section starts
aligned, a layout ends where the sizes add up to, and it exists when that is a 32-bit offset. Only pointers of more than
four bytes may leave a gap, before the first of them. -/

namespace MethodAssembler

/-! ### One behind the other -/

/-- Gives each item the offset reached and goes on where `next` says. -/
def arrange {α : Type} (next : α → UInt32 → Checked UInt32) (put : α → UInt32 → α) :
    List α → (offset : UInt32) → Checked (List α × UInt32)
  | [], offset => .ok ([], offset)
  | x :: rest, offset => do
    let (rest, stop) ← arrange next put rest (← next x offset)
    return (put x offset :: rest, stop)

section Arrange
variable {α : Type} {next : α → UInt32 → Checked UInt32} {put : α → UInt32 → α} {size : α → Nat} {xs ys : List α}
  {offset stop : UInt32}

theorem arrange_cons {x : α} : arrange next put (x :: xs) offset = .ok (ys, stop) ↔
    ∃ reached tail, next x offset = .ok reached ∧ arrange next put xs reached = .ok (tail, stop) ∧
      ys = put x offset :: tail := by
  simp only [arrange, Checked.bind_eq_ok, Checked.pure_eq, Except.ok.injEq, Prod.mk.injEq, Prod.exists]
  constructor
  · rintro ⟨reached, hn, tail, stop', ht, rfl, rfl⟩
    exact ⟨reached, tail, hn, ht, rfl⟩
  · rintro ⟨reached, tail, hn, ht, rfl⟩
    exact ⟨reached, hn, tail, stop, ht, rfl, rfl⟩

/-- The items of a layout are those that were laid out, up to their offsets. -/
theorem mem_arrange (h : arrange next put xs offset = .ok (ys, stop)) {y : α} (hy : y ∈ ys) :
    ∃ x ∈ xs, ∃ o, y = put x o := by
  induction xs generalizing offset ys with
  | nil =>
    cases h
    cases hy
  | cons x xs ih =>
    obtain ⟨reached, tail, -, ht, rfl⟩ := arrange_cons.mp h
    rcases List.mem_cons.mp hy with rfl | hy
    · exact ⟨x, List.mem_cons_self, offset, rfl⟩
    · obtain ⟨x', hx', o, rfl⟩ := ih ht hy
      exact ⟨x', List.mem_cons_of_mem _ hx', o, rfl⟩

theorem map_arrange {β : Type} {g : α → β} (hg : ∀ x o, g (put x o) = g x)
    (h : arrange next put xs offset = .ok (ys, stop)) : ys.map g = xs.map g := by
  induction xs generalizing offset ys with
  | nil =>
    cases h
    rfl
  | cons x xs ih =>
    obtain ⟨reached, tail, -, ht, rfl⟩ := arrange_cons.mp h
    rw [List.map_cons, List.map_cons, hg, ih ht]

/-- Every item takes a multiple of four bytes, and the next one stands right behind it. -/
def Sized (next : α → UInt32 → Checked UInt32) (size : α → Nat) (xs : List α) : Prop :=
  ∀ x ∈ xs, 4 ∣ size x ∧
    ∀ offset reached : UInt32, 4 ∣ offset.toNat → (next x offset = .ok reached ↔ reached.toNat = offset.toNat + size x)

theorem arrange_stop (hs : Sized next size xs) (ho : 4 ∣ offset.toNat)
    (h : arrange next put xs offset = .ok (ys, stop)) : stop.toNat = offset.toNat + (xs.map size).sum := by
  induction xs generalizing offset ys with
  | nil =>
    cases h
    rfl
  | cons x xs ih =>
    obtain ⟨hx, hn⟩ := hs x List.mem_cons_self
    obtain ⟨reached, tail, hr, ht, rfl⟩ := arrange_cons.mp h
    have hreached := (hn _ _ ho).mp hr
    rw [ih (fun y hy => hs y (List.mem_cons_of_mem _ hy)) (by omega) ht, hreached, List.map_cons, List.sum_cons,
      Nat.add_assoc]

/-- An item stands behind all that come before it. -/
theorem arrange_getElem? (hs : Sized next size xs) (ho : 4 ∣ offset.toNat)
    (h : arrange next put xs offset = .ok (ys, stop)) {k : Nat} {x : α} (hk : xs[k]? = some x) :
    ∃ o : UInt32, ys[k]? = some (put x o) ∧ o.toNat = offset.toNat + ((xs.take k).map size).sum := by
  induction xs generalizing offset ys k with
  | nil => cases hk
  | cons x' xs ih =>
    obtain ⟨hx, hn⟩ := hs x' List.mem_cons_self
    obtain ⟨reached, tail, hr, ht, rfl⟩ := arrange_cons.mp h
    have hreached := (hn _ _ ho).mp hr
    cases k with
    | zero =>
      cases hk
      exact ⟨offset, rfl, rfl⟩
    | succ k =>
      obtain ⟨o, ho', hsum⟩ := ih (fun y hy => hs y (List.mem_cons_of_mem _ hy)) (by omega) ht hk
      refine ⟨o, ho', ?_⟩
      rw [hsum, hreached, List.take_succ_cons, List.map_cons, List.sum_cons, Nat.add_assoc]

theorem arrange_of_lt (hs : Sized next size xs) (ho : 4 ∣ offset.toNat)
    (hlt : offset.toNat + (xs.map size).sum < 2 ^ 32) : ∃ ys stop, arrange next put xs offset = .ok (ys, stop) := by
  induction xs generalizing offset with
  | nil => exact ⟨[], offset, rfl⟩
  | cons x xs ih =>
    obtain ⟨hx, hn⟩ := hs x List.mem_cons_self
    rw [List.map_cons, List.sum_cons] at hlt
    have hval : (UInt32.ofNat (offset.toNat + size x)).toNat = offset.toNat + size x :=
      UInt32.toNat_ofNat_of_lt' (show _ < 2 ^ 32 by omega)
    have hdvd : 4 ∣ (UInt32.ofNat (offset.toNat + size x)).toNat := by omega
    obtain ⟨tail, stop, ht⟩ := ih (fun y hy => hs y (List.mem_cons_of_mem _ hy)) hdvd (by omega)
    exact ⟨_, stop, arrange_cons.mpr ⟨_, tail, (hn _ _ ho).mpr hval, ht, rfl⟩⟩

theorem dvd_sum_sizes (hs : Sized next size xs) : 4 ∣ (xs.map size).sum := by
  induction xs with
  | nil => exact Nat.dvd_zero 4
  | cons x xs ih =>
    rw [List.map_cons, List.sum_cons]
    exact Nat.dvd_add (hs x List.mem_cons_self).1 (ih fun y hy => hs y (List.mem_cons_of_mem _ hy))

theorem dvd_stop_arrange (hs : Sized next size xs) (ho : 4 ∣ offset.toNat)
    (h : arrange next put xs offset = .ok (ys, stop)) : 4 ∣ stop.toNat := by
  rw [arrange_stop hs ho h]
  exact Nat.dvd_add ho (dvd_sum_sizes hs)

/-- What is placed at the offsets of a layout ascends if no item is larger than its size. -/
theorem ascends_arrange (hs : Sized next size xs) (ho : 4 ∣ offset.toNat)
    (h : arrange next put xs offset = .ok (ys, stop)) (place : α → Placement)
    (hplace : ∀ x ∈ xs, ∀ o, (place (put x o)).offset = o ∧ (place (put x o)).bytes.length ≤ size x) :
    Ascends offset.toNat (ys.map place) stop.toNat := by
  induction xs generalizing offset ys with
  | nil =>
    cases h
    exact Nat.le_refl _
  | cons x xs ih =>
    obtain ⟨hx, hn⟩ := hs x List.mem_cons_self
    obtain ⟨hstart, hlength⟩ := hplace x List.mem_cons_self offset
    obtain ⟨reached, tail, hr, ht, rfl⟩ := arrange_cons.mp h
    have hreached := (hn _ _ ho).mp hr
    have htail := ih (fun y hy => hs y (List.mem_cons_of_mem _ hy)) (by omega) ht
      fun y hy => hplace y (List.mem_cons_of_mem _ hy)
    refine ⟨Nat.le_of_eq (by rw [Placement.start, hstart]), htail.mono ?_ (Nat.le_refl _)⟩
    rw [Placement.stop, hstart]
    omega

end Arrange

/-! ### The sections -/

/-- A literal at its offset, in four bytes. -/
def Literal.placement (lit : Literal) : Placement := ⟨lit.offset, littleEndian 4 lit.value.toUInt32.toNat⟩

namespace LiteralPool

/-- The literals of a pool at their offsets. -/
def placements (p : LiteralPool) : List Placement := p.literals.map Literal.placement

theorem spread_eq_arrange (step : UInt32) (literals : List Literal) (offset : UInt32) :
    spread step literals offset =
      arrange (fun _ o => addWords o step) (fun lit o => { lit with offset := o }) literals offset := by
  induction literals generalizing offset with
  | nil => rfl
  | cons lit literals ih => simp only [spread, arrange, ih]

end LiteralPool

theorem assignSwitchTables_eq_arrange (tables : List SwitchTable) (offset : UInt32) :
    assignSwitchTables tables offset =
      arrange (fun t o => addWords o t.payload.installedSize) (fun t o => { t with offset := o }) tables offset := by
  induction tables generalizing offset with
  | nil => rfl
  | cons t tables ih => simp only [assignSwitchTables, arrange, ih]

theorem assignFillArrays_eq_arrange (fills : List FillArray) (offset : UInt32) :
    assignFillArrays fills offset =
      arrange (fun f o => addWords o f.size >>= (alignUp · 4)) (fun f o => { f with offset := o }) fills offset := by
  induction fills generalizing offset with
  | nil => rfl
  | cons f fills ih =>
    simp only [assignFillArrays, arrange, ih]
    cases addWords offset f.size <;> rfl

namespace SwitchPayload

/-- A payload counts its cases in 16 bits, so the size of its table is never cut off. -/
theorem installedSize_toNat (p : SwitchPayload) : p.installedSize.toNat = p.size * p.caseBytes := by
  have hsize : p.size < 2 ^ 16 := (p.units.getD 1 0).toNat_lt
  have hbytes : p.caseBytes ≤ 8 := by
    rw [caseBytes]
    split <;> decide
  have hmul := Nat.mul_le_mul (Nat.le_of_lt hsize) hbytes
  exact UInt32.toNat_ofNat_of_lt' (show _ < 2 ^ 32 by omega)

theorem four_dvd_size (p : SwitchPayload) : 4 ∣ p.size * p.caseBytes := by
  refine Nat.dvd_mul_left_of_dvd ?_ _
  rw [caseBytes]
  split <;> decide

end SwitchPayload

theorem sized_switchTables (tables : List SwitchTable) :
    Sized (fun t o => addWords o t.payload.installedSize) (fun t => t.payload.size * t.payload.caseBytes) tables :=
  fun t _ => ⟨t.payload.four_dvd_size, fun _ _ _ => by rw [addWords_eq_ok, t.payload.installedSize_toNat]⟩

theorem roundUp_add {n m : Nat} (h : 4 ∣ n) : roundUp (n + m) 4 = n + roundUp m 4 := by
  rw [roundUp, roundUp]
  omega

theorem sized_fillArrays (fills : List FillArray) :
    Sized (fun f o => addWords o f.size >>= (alignUp · 4)) (fun f => roundUp f.size.toNat 4) fills := by
  refine fun f _ => ⟨dvd_roundUp _ _, fun offset reached ho => ?_⟩
  rw [Checked.bind_eq_ok]
  constructor
  · rintro ⟨sum, hsum, hr⟩
    rw [(alignUp_eq_ok.mp hr).2.2, addWords_eq_ok.mp hsum]
    exact roundUp_add ho
  · intro (hr : reached.toNat = offset.toNat + roundUp f.size.toNat 4)
    have hreached := reached.toNat_lt
    have hle : f.size.toNat ≤ roundUp f.size.toNat 4 := le_roundUp (by decide)
    obtain ⟨sum, hsum, hval⟩ := addWords_of_lt (show offset.toNat + f.size.toNat < 2 ^ 32 by omega)
    refine ⟨sum, hsum, (alignUp_eq_ok_iff (by decide)).mpr ?_⟩
    rw [hr, hval]
    exact (roundUp_add ho).symm

namespace FillArray

/-- The bytes of a fill-array: as many units as its size takes, two bytes each. -/
def bytes (f : FillArray) : List UInt8 :=
  (f.units.toList.take (unitsFor f.size.toNat)).flatMap fun unit => littleEndian 2 unit.toNat

theorem length_bytes (f : FillArray) : f.bytes.length = min (unitsFor f.size.toNat) f.units.size * 2 := by
  simp only [bytes, List.length_flatMap, littleEndian_length, List.map_const', List.sum_replicate_nat, List.length_take,
    Array.length_toList]

theorem bytes_length_le (f : FillArray) : f.bytes.length ≤ roundUp f.size.toNat 4 := by
  rw [length_bytes, unitsFor, roundUp]
  omega

end FillArray

/-! ### Pools -/

namespace LiteralPool

/-- The literals of `p` stand in `p'` one behind the other from `offset` up to `stop`, `step` bytes each. -/
structure Spreads (step : UInt32) (p : LiteralPool) (offset : UInt32) (p' : LiteralPool) (stop : UInt32) : Prop where
  literals : arrange (fun _ o => addWords o step) (fun lit o => { lit with offset := o }) p.literals offset =
    .ok (p'.literals, stop)
  estimatedSize : p'.estimatedSize = p.estimatedSize

/-- The pool without its offsets. -/
def withoutOffsets (p : LiteralPool) : LiteralPool := { p with literals := p.literals.map ({ · with offset := 0 }) }

variable {step offset stop : UInt32} {p p' : LiteralPool}

theorem assignWords_eq_ok : p.assignWords offset = .ok (p', stop) ↔ Spreads 4 p offset p' stop := by
  simp only [assignWords, spread_eq_arrange, Checked.bind_eq_ok, Checked.pure_eq, Except.ok.injEq,
    Prod.mk.injEq, Prod.exists]
  constructor
  · rintro ⟨literals, stop, h, rfl, rfl⟩
    exact ⟨h, rfl⟩
  · rintro ⟨h, hsize⟩
    exact ⟨p'.literals, stop, h, by rw [← hsize], rfl⟩

theorem assignPointers_eq_ok : p.assignPointers offset step = .ok (p', stop) ↔
    ∃ start, alignUp offset step = .ok start ∧ Spreads step p start p' stop := by
  simp only [assignPointers, spread_eq_arrange, Checked.bind_eq_ok, Checked.pure_eq, Except.ok.injEq,
    Prod.mk.injEq, Prod.exists]
  constructor
  · rintro ⟨start, hstart, literals, stop, h, rfl, rfl⟩
    exact ⟨start, hstart, h, rfl⟩
  · rintro ⟨start, hstart, h, hsize⟩
    exact ⟨start, hstart, p'.literals, stop, h, by rw [← hsize], rfl⟩

theorem sized_pointers (h4 : 4 ∣ step.toNat) (literals : List Literal) :
    Sized (fun _ o => addWords o step) (fun _ : Literal => step.toNat) literals :=
  fun _ _ => ⟨h4, fun _ _ _ => addWords_eq_ok⟩

theorem exists_spreads (h4 : 4 ∣ step.toNat) (ho : 4 ∣ offset.toNat) (hlt : offset.toNat + step.toNat * p.size < 2 ^ 32) :
    ∃ p' stop, Spreads step p offset p' stop := by
  obtain ⟨literals, stop, h⟩ : ∃ literals stop, arrange (fun _ o => addWords o step)
      (fun (lit : Literal) o => { lit with offset := o }) p.literals offset = .ok (literals, stop) := by
    refine arrange_of_lt (sized_pointers h4 p.literals) ho ?_
    rwa [List.map_const', List.sum_replicate_nat, Nat.mul_comm]
  exact ⟨{ p with literals }, stop, h, rfl⟩

namespace Spreads

theorem stop_eq (h : Spreads step p offset p' stop) (h4 : 4 ∣ step.toNat) (ho : 4 ∣ offset.toNat) :
    stop.toNat = offset.toNat + step.toNat * p.size := by
  rw [arrange_stop (sized_pointers h4 p.literals) ho h.literals, List.map_const', List.sum_replicate_nat,
    size, Nat.mul_comm]

theorem dvd_stop (h : Spreads step p offset p' stop) (h4 : 4 ∣ step.toNat) (ho : step.toNat ∣ offset.toNat) :
    step.toNat ∣ stop.toNat := by
  rw [h.stop_eq h4 (Nat.dvd_trans h4 ho)]
  exact Nat.dvd_add ho (Nat.dvd_mul_right _ _)

theorem same (h : Spreads step p offset p' stop) : p'.withoutOffsets = p.withoutOffsets := by
  have hliterals : p'.literals.map (fun lit => { lit with offset := 0 }) =
      p.literals.map fun lit => { lit with offset := 0 } := by
    refine map_arrange ?_ h.literals
    exact fun _ _ => rfl
  rw [withoutOffsets, withoutOffsets, h.estimatedSize, hliterals]

theorem ascends (h : Spreads 4 p offset p' stop) (ho : 4 ∣ offset.toNat) : Ascends offset.toNat p'.placements stop.toNat :=
  ascends_arrange (sized_pointers (by decide) p.literals) ho h.literals _ fun _ _ _ =>
    ⟨rfl, Nat.le_of_eq (littleEndian_length _ _)⟩

end Spreads

end LiteralPool

/-! ### All data -/

namespace DataSections

/-- Where the data end behind `codeSize` bytes of code. -/
def dataEnd (s : DataSections) (codeSize pointerSize : Nat) : Nat :=
  roundUp (roundUp codeSize 4 + 4 * s.words.size) pointerSize + pointerSize * s.codePointers.size +
    pointerSize * s.methodPointers.size + (s.switchTables.map fun t => t.payload.size * t.payload.caseBytes).sum +
    (s.fillArrays.map fun f => roundUp f.size.toNat 4).sum

/-- The data without their offsets. -/
def withoutOffsets (d : DataSections) : DataSections where
  words := d.words.withoutOffsets
  codePointers := d.codePointers.withoutOffsets
  methodPointers := d.methodPointers.withoutOffsets
  switchTables := d.switchTables.map ({ · with offset := 0 })
  fillArrays := d.fillArrays.map ({ · with offset := 0 })

/-- How a layout comes about, section by section. The pointers start at `pointers`, and every other section where the one
    before it ends. -/
structure Spread (s d : DataSections) (codeSize pointerSize : UInt32) (layout : DataLayout)
    (o₁ pointers o₂ o₃ o₄ : UInt32) :
    Prop where
  dataOffset : layout.dataOffset.toNat = roundUp codeSize.toNat 4
  words : s.words.Spreads 4 layout.dataOffset d.words o₁
  aligned : pointers.toNat = roundUp o₁.toNat pointerSize.toNat
  codePointers : s.codePointers.Spreads pointerSize pointers d.codePointers o₂
  methodPointers : s.methodPointers.Spreads pointerSize o₂ d.methodPointers o₃
  switchTables : arrange (fun t o => addWords o t.payload.installedSize) (fun t o => { t with offset := o })
    s.switchTables o₃ = .ok (d.switchTables, o₄)
  fillArrays : arrange (fun f o => addWords o f.size >>= (alignUp · 4)) (fun f o => { f with offset := o })
    s.fillArrays o₄ = .ok (d.fillArrays, layout.totalSize)

section Spread
variable {s d : DataSections} {codeSize pointerSize o₁ pointers o₂ o₃ o₄ : UInt32} {layout : DataLayout}

/-- Pointers end at a multiple of their size, so the second pool of them needs no gap. -/
theorem assign_eq_ok (hpow : isPowerOfTwo pointerSize = true) (h4 : 4 ∣ pointerSize.toNat) :
    s.assign codeSize pointerSize = .ok (d, layout) ↔
      ∃ o₁ pointers o₂ o₃ o₄, Spread s d codeSize pointerSize layout o₁ pointers o₂ o₃ o₄ := by
  have hpos := isPowerOfTwo_pos hpow
  have hmethods : ∀ {o₁ pointers o₂ start : UInt32} {p' : LiteralPool},
      pointers.toNat = roundUp o₁.toNat pointerSize.toNat →
      s.codePointers.Spreads pointerSize pointers p' o₂ →
      (alignUp o₂ pointerSize = .ok start ↔ start = o₂) := by
    intro o₁ pointers o₂ start p' hp hcodes
    have hdvd := hcodes.dvd_stop h4 (hp ▸ dvd_roundUp _ _)
    rw [alignUp_eq_ok_iff hpow, roundUp_of_dvd hpos hdvd, UInt32.toNat_inj]
  simp only [assign, Checked.bind_eq_ok, Checked.pure_eq, Except.ok.injEq, Prod.mk.injEq, Prod.exists,
    LiteralPool.assignWords_eq_ok, LiteralPool.assignPointers_eq_ok, assignSwitchTables_eq_arrange,
    assignFillArrays_eq_arrange]
  constructor
  · rintro ⟨start, hstart, words, o₁, hwords, codes, o₂, ⟨pointers, hpointers, hcodes⟩, methods, o₃,
      ⟨start₂, hstart₂, hmeths⟩,
      tables, o₄, htables, fills, stop, hfills, rfl, rfl⟩
    have hp := (alignUp_eq_ok_iff hpow).mp hpointers
    obtain rfl := (hmethods hp hcodes).mp hstart₂
    exact ⟨o₁, pointers, start₂, o₃, o₄, (alignUp_eq_ok_iff (by decide)).mp hstart, hwords, hp, hcodes,
      hmeths, htables, hfills⟩
  · rintro ⟨o₁, pointers, o₂, o₃, o₄, h⟩
    exact ⟨layout.dataOffset, (alignUp_eq_ok_iff (by decide)).mpr h.dataOffset, d.words, o₁, h.words, d.codePointers, o₂,
      ⟨pointers, (alignUp_eq_ok_iff hpow).mpr h.aligned, h.codePointers⟩, d.methodPointers, o₃,
      ⟨o₂, (hmethods h.aligned h.codePointers).mpr rfl, h.methodPointers⟩, d.switchTables, o₄, h.switchTables, d.fillArrays,
      layout.totalSize, h.fillArrays, rfl, rfl⟩

/-- Where the sections start and end. -/
theorem Spread.stops (h : Spread s d codeSize pointerSize layout o₁ pointers o₂ o₃ o₄) (h4 : 4 ∣ pointerSize.toNat) :
    4 ∣ layout.dataOffset.toNat ∧ pointerSize.toNat ∣ pointers.toNat ∧ pointerSize.toNat ∣ o₂.toNat ∧
      4 ∣ o₃.toNat ∧ 4 ∣ o₄.toNat ∧ layout.totalSize.toNat = s.dataEnd codeSize.toNat pointerSize.toNat := by
  have d₀ : 4 ∣ layout.dataOffset.toNat := h.dataOffset ▸ dvd_roundUp _ _
  have dp : pointerSize.toNat ∣ pointers.toNat := h.aligned ▸ dvd_roundUp _ _
  have d₂ := h.codePointers.dvd_stop h4 dp
  have d₃ : 4 ∣ o₃.toNat := Nat.dvd_trans h4 (h.methodPointers.dvd_stop h4 d₂)
  have d₄ := dvd_stop_arrange (sized_switchTables _) d₃ h.switchTables
  refine ⟨d₀, dp, d₂, d₃, d₄, ?_⟩
  rw [arrange_stop (sized_fillArrays _) d₄ h.fillArrays, arrange_stop (sized_switchTables _) d₃ h.switchTables,
    h.methodPointers.stop_eq h4 (Nat.dvd_trans h4 d₂), h.codePointers.stop_eq h4 (Nat.dvd_trans h4 dp), h.aligned,
    h.words.stop_eq (by decide) d₀, h.dataOffset, dataEnd]
  rfl

theorem Spread.same (h : Spread s d codeSize pointerSize layout o₁ pointers o₂ o₃ o₄) :
    d.withoutOffsets = s.withoutOffsets := by
  have htables : d.switchTables.map (fun t => { t with offset := 0 }) =
      s.switchTables.map fun t => { t with offset := 0 } := by
    refine map_arrange ?_ h.switchTables
    exact fun _ _ => rfl
  have hfills : d.fillArrays.map (fun f => { f with offset := 0 }) =
      s.fillArrays.map fun f => { f with offset := 0 } := by
    refine map_arrange ?_ h.fillArrays
    exact fun _ _ => rfl
  rw [withoutOffsets, withoutOffsets, h.words.same, h.codePointers.same, h.methodPointers.same, htables, hfills]

theorem exists_spread (hpow : isPowerOfTwo pointerSize = true) (h4 : 4 ∣ pointerSize.toNat)
    (hlt : s.dataEnd codeSize.toNat pointerSize.toNat < 2 ^ 32) :
    ∃ d layout o₁ pointers o₂ o₃ o₄, Spread s d codeSize pointerSize layout o₁ pointers o₂ o₃ o₄ := by
  have hpos := isPowerOfTwo_pos hpow
  rw [dataEnd] at hlt
  have hround : roundUp codeSize.toNat 4 + 4 * s.words.size ≤
    roundUp (roundUp codeSize.toNat 4 + 4 * s.words.size) pointerSize.toNat := le_roundUp hpos
  -- Each section ends below the end of all data, so every offset on the way is a word.
  obtain ⟨start, hstart⟩ : ∃ start : UInt32, start.toNat = roundUp codeSize.toNat 4 :=
    ⟨_, UInt32.toNat_ofNat_of_lt' (show _ < 2 ^ 32 by omega)⟩
  have d₀ : 4 ∣ start.toNat := hstart ▸ dvd_roundUp _ _
  obtain ⟨words, o₁, hwords⟩ : ∃ words o₁, s.words.Spreads 4 start words o₁ :=
    LiteralPool.exists_spreads (by decide) d₀ (show start.toNat + 4 * s.words.size < 2 ^ 32 by omega)
  have h₁ : o₁.toNat = start.toNat + 4 * s.words.size := hwords.stop_eq (by decide) d₀
  rw [← hstart, ← h₁] at hlt
  obtain ⟨pointers, hpointers⟩ : ∃ pointers : UInt32, pointers.toNat = roundUp o₁.toNat pointerSize.toNat :=
    ⟨_, UInt32.toNat_ofNat_of_lt' (show _ < 2 ^ 32 by omega)⟩
  have dp : pointerSize.toNat ∣ pointers.toNat := hpointers ▸ dvd_roundUp _ _
  obtain ⟨codes, o₂, hcodes⟩ : ∃ codes o₂, s.codePointers.Spreads pointerSize pointers codes o₂ :=
    LiteralPool.exists_spreads h4 (Nat.dvd_trans h4 dp) (by omega)
  have h₂ := hcodes.stop_eq h4 (Nat.dvd_trans h4 dp)
  have d₂ := hcodes.dvd_stop h4 dp
  obtain ⟨methods, o₃, hmethods⟩ : ∃ methods o₃, s.methodPointers.Spreads pointerSize o₂ methods o₃ :=
    LiteralPool.exists_spreads h4 (Nat.dvd_trans h4 d₂) (by omega)
  have h₃ := hmethods.stop_eq h4 (Nat.dvd_trans h4 d₂)
  have d₃ : 4 ∣ o₃.toNat := Nat.dvd_trans h4 (hmethods.dvd_stop h4 d₂)
  obtain ⟨tables, o₄, htables⟩ := arrange_of_lt (sized_switchTables s.switchTables) d₃ (by omega)
  have h₄ := arrange_stop (sized_switchTables _) d₃ htables
  have d₄ := dvd_stop_arrange (sized_switchTables _) d₃ htables
  obtain ⟨fills, stop, hfills⟩ := arrange_of_lt (sized_fillArrays s.fillArrays) d₄ (by omega)
  exact ⟨⟨words, codes, methods, tables, fills⟩, ⟨start, stop⟩, o₁, pointers, o₂, o₃, o₄, hstart, hwords, hpointers, hcodes,
    hmethods, htables, hfills⟩

end Spread

/-! ### Pointers of four bytes -/

/-- How many bytes the data take behind an aligned start. -/
def bytes (s : DataSections) : Nat :=
  4 * s.words.size + 4 * s.codePointers.size + 4 * s.methodPointers.size +
    (s.switchTables.map fun t => t.payload.size * t.payload.caseBytes).sum +
    (s.fillArrays.map fun f => roundUp f.size.toNat 4).sum

/-- The data at their offsets, from the aligned start of the first up to the end of the image. -/
def placements (d : DataSections) (layout : DataLayout) (image : SwitchTable → List UInt8) : List Placement :=
  [⟨layout.dataOffset, []⟩] ++ d.words.placements ++ (d.codePointers.placements ++ (d.methodPointers.placements ++
    (d.switchTables.map (fun t => ⟨t.offset, image t⟩) ++ (d.fillArrays.map (fun f => ⟨f.offset, f.bytes⟩) ++
      [⟨layout.totalSize, []⟩]))))

section Four
variable {s d : DataSections} {codeSize o₁ o₂ o₃ o₄ : UInt32} {layout : DataLayout}

theorem dataEnd_four (s : DataSections) (codeSize : Nat) : s.dataEnd codeSize 4 = roundUp codeSize 4 + s.bytes := by
  have hdvd : 4 ∣ roundUp codeSize 4 + 4 * s.words.size := Nat.dvd_add (dvd_roundUp _ _) (Nat.dvd_mul_right 4 _)
  rw [dataEnd, roundUp_of_dvd (by decide) hdvd, bytes]
  omega

/-- Words end at a multiple of four, so the pointers behind them need no gap. -/
theorem spread_of_assign (h : s.assign codeSize 4 = .ok (d, layout)) :
    ∃ o₁ o₂ o₃ o₄, Spread s d codeSize 4 layout o₁ o₁ o₂ o₃ o₄ := by
  obtain ⟨o₁, pointers, o₂, o₃, o₄, h⟩ := (assign_eq_ok (by decide) (by decide)).mp h
  have d₁ : 4 ∣ o₁.toNat := h.words.dvd_stop (by decide) (h.dataOffset ▸ dvd_roundUp _ _)
  obtain rfl : pointers = o₁ := UInt32.toNat_inj.mp (h.aligned.trans (roundUp_of_dvd (by decide) d₁))
  exact ⟨pointers, o₂, o₃, o₄, h⟩

/-- The switch tables stand behind all literals. -/
theorem Spread.start_switchTables (h : Spread s d codeSize 4 layout o₁ o₁ o₂ o₃ o₄) :
    o₃.toNat = layout.dataOffset.toNat + 4 * s.words.size + 4 * s.codePointers.size + 4 * s.methodPointers.size := by
  obtain ⟨d₀, d₁, d₂, -⟩ := h.stops (by decide)
  rw [h.methodPointers.stop_eq (by decide) d₂, h.codePointers.stop_eq (by decide) d₁, h.words.stop_eq (by decide) d₀]
  rfl

theorem assign_of_lt (h : roundUp codeSize.toNat 4 + s.bytes < 2 ^ 32) :
    ∃ d layout, s.assign codeSize 4 = .ok (d, layout) := by
  have hlt : s.dataEnd codeSize.toNat (4 : UInt32).toNat < 2 ^ 32 := (s.dataEnd_four codeSize.toNat).symm ▸ h
  obtain ⟨d, layout, o₁, pointers, o₂, o₃, o₄, hspread⟩ := exists_spread (by decide) (by decide) hlt
  exact ⟨d, layout, (assign_eq_ok (by decide) (by decide)).mpr ⟨o₁, pointers, o₂, o₃, o₄, hspread⟩⟩

theorem assign_totalSize (h : s.assign codeSize 4 = .ok (d, layout)) :
    layout.totalSize.toNat = roundUp codeSize.toNat 4 + s.bytes := by
  obtain ⟨o₁, o₂, o₃, o₄, hspread⟩ := spread_of_assign h
  obtain ⟨-, -, -, -, -, hstop⟩ := hspread.stops (by decide)
  exact hstop.trans (s.dataEnd_four codeSize.toNat)

/-- A layout puts the data one behind the other between the end of the code and the end of the image. -/
theorem ascends_placements (h : s.assign codeSize 4 = .ok (d, layout)) (image : SwitchTable → List UInt8)
    (himage : ∀ t ∈ s.switchTables, ∀ offset,
      (image { t with offset }).length ≤ t.payload.size * t.payload.caseBytes) :
    Ascends codeSize.toNat (d.placements layout image) layout.totalSize.toNat := by
  obtain ⟨o₁, o₂, o₃, o₄, hspread⟩ := spread_of_assign h
  obtain ⟨d₀, d₁, d₂, d₃, d₄, -⟩ := hspread.stops (by decide)
  have hle : codeSize.toNat ≤ layout.dataOffset.toNat := hspread.dataOffset ▸ le_roundUp (by decide)
  have htables : Ascends o₃.toNat (d.switchTables.map fun t => ⟨t.offset, image t⟩) o₄.toNat :=
    ascends_arrange (sized_switchTables _) d₃ hspread.switchTables _ fun t ht offset => ⟨rfl, himage t ht offset⟩
  have hfills : Ascends o₄.toNat (d.fillArrays.map fun f => ⟨f.offset, f.bytes⟩) layout.totalSize.toNat :=
    ascends_arrange (sized_fillArrays _) d₄ hspread.fillArrays _ fun f _ offset => ⟨rfl, FillArray.bytes_length_le f⟩
  have hseek : ∀ offset : UInt32, Ascends offset.toNat [⟨offset, []⟩] offset.toNat :=
    fun _ => ⟨Nat.le_refl _, Nat.le_refl _⟩
  have hwords := (Ascends.mono (hseek _) hle (Nat.le_refl _)).append (hspread.words.ascends d₀)
  exact hwords.append ((hspread.codePointers.ascends d₁).append
    ((hspread.methodPointers.ascends d₂).append (htables.append (hfills.append (hseek _)))))

end Four

end DataSections

end MethodAssembler
