import Mathlib.Order.Bounds.Defs
import MethodAssembler.Proofs.FailedCompilation

/-! # The ranges of data

The data of a method stand behind its code, one item behind the other, with gaps only where the next item or the end of
the image is aligned. This holds for every size of pointers that is a power of two and at least four, and for every data
that end below 2 ^ 32. -/

namespace MethodAssembler

/-! ### Packed ranges -/

/-- A range of bytes. -/
structure Extent where
  start : Nat
  size : Nat
deriving DecidableEq, Repr

/-- Where the range ends. -/
def Extent.stop (e : Extent) : Nat := e.start + e.size

/-- One range behind the other from `reached` up to `stop`, with less than `gap` bytes between neighbours and at the
    ends. -/
def Packed (gap : Nat) : (reached : Nat) → List Extent → (stop : Nat) → Prop
  | reached, [], stop => reached ≤ stop ∧ stop < reached + gap
  | reached, e :: rest, stop => (reached ≤ e.start ∧ e.start < reached + gap) ∧ Packed gap e.stop rest stop

/-- The same with no gap before the first range. -/
def Flush (gap : Nat) (start : Nat) : List Extent → (stop : Nat) → Prop
  | [], stop => stop = start
  | e :: rest, stop => e.start = start ∧ Packed gap e.stop rest stop

section Packed
variable {gap start middle stop : Nat} {xs ys : List Extent}

theorem Flush.packed (h : Flush gap middle ys stop) (hle : start ≤ middle) (hlt : middle < start + gap) :
    Packed gap start ys stop := by
  cases ys with
  | nil =>
    cases h
    exact ⟨hle, hlt⟩
  | cons e ys => exact ⟨h.1.symm ▸ ⟨hle, hlt⟩, h.2⟩

theorem Packed.append (hx : Packed gap start xs middle) (hy : Flush gap middle ys stop) :
    Packed gap start (xs ++ ys) stop := by
  induction xs generalizing start with
  | nil => exact hy.packed hx.1 hx.2
  | cons e xs ih => exact ⟨hx.1, ih hx.2⟩

/-- Ranges without any gap may be followed by one. -/
theorem Packed.widen (h : Packed 1 start xs middle) (hle : middle ≤ stop) (hlt : stop < middle + gap) :
    Packed gap start xs stop := by
  induction xs generalizing start with
  | nil =>
    obtain ⟨h₁, h₂⟩ := h
    constructor <;> omega
  | cons e xs ih =>
    obtain ⟨⟨h₁, h₂⟩, h⟩ := h
    exact ⟨by omega, ih h⟩

theorem Packed.le (h : Packed gap start xs stop) : start ≤ stop := by
  induction xs generalizing start with
  | nil => exact h.1
  | cons e xs ih =>
    have hstop := ih h.2
    have hstart := h.1.1
    simp only [Extent.stop] at hstop
    omega

theorem Packed.within (h : Packed gap start xs stop) {e : Extent} (he : e ∈ xs) : start ≤ e.start ∧ e.stop ≤ stop := by
  induction xs generalizing start with
  | nil => cases he
  | cons x xs ih =>
    obtain ⟨⟨hle, -⟩, hrest⟩ := h
    rcases List.mem_cons.mp he with rfl | he
    · exact ⟨hle, hrest.le⟩
    · obtain ⟨hstart, hstop⟩ := ih hrest he
      refine ⟨?_, hstop⟩
      simp only [Extent.stop] at hstart
      omega

end Packed

/-! ### Sections -/

section Sections
variable {α : Type} {next : α → UInt32 → Checked UInt32} {put : α → UInt32 → α} {size : α → Nat} {xs ys : List α}
  {offset stop : UInt32} {gap : Nat} {extent : α → Extent}

theorem flush_arrange (hs : Sized next size xs) (ho : 4 ∣ offset.toNat) (h : arrange next put xs offset = .ok (ys, stop))
    (hextent : ∀ x ∈ xs, ∀ o, (extent (put x o)).start = o.toNat ∧ (extent (put x o)).size ≤ size x ∧
      size x < (extent (put x o)).size + gap) :
    Flush gap offset.toNat (ys.map extent) stop.toNat := by
  induction xs generalizing offset ys with
  | nil =>
    cases h
    rfl
  | cons x xs ih =>
    obtain ⟨hx, hn⟩ := hs x List.mem_cons_self
    obtain ⟨hstart, hle, hlt⟩ := hextent x List.mem_cons_self offset
    obtain ⟨reached, tail, hr, ht, rfl⟩ := arrange_cons.mp h
    have hreached := (hn _ _ ho).mp hr
    have htail := ih (fun y hy => hs y (List.mem_cons_of_mem _ hy)) (by omega) ht
      fun y hy => hextent y (List.mem_cons_of_mem _ hy)
    refine ⟨hstart, htail.packed ?_ ?_⟩ <;>
    · rw [Extent.stop, hstart, hreached]
      omega

/-- Sizes that keep an alignment keep it for all items. -/
theorem dvd_arrange {a : Nat} (hs : Sized next size xs) (ha : ∀ x ∈ xs, a ∣ size x) (ho : 4 ∣ offset.toNat)
    (hd : a ∣ offset.toNat) (h : arrange next put xs offset = .ok (ys, stop)) {f : α → UInt32}
    (hput : ∀ x o, f (put x o) = o) {y : α} (hy : y ∈ ys) : a ∣ (f y).toNat := by
  induction xs generalizing offset ys with
  | nil =>
    cases h
    cases hy
  | cons x xs ih =>
    obtain ⟨hx, hn⟩ := hs x List.mem_cons_self
    obtain ⟨reached, tail, hr, ht, rfl⟩ := arrange_cons.mp h
    have hreached := (hn _ _ ho).mp hr
    rcases List.mem_cons.mp hy with rfl | hy
    · rwa [hput]
    · refine ih (fun y hy => hs y (List.mem_cons_of_mem _ hy))
        (fun y hy => ha y (List.mem_cons_of_mem _ hy)) (by omega) ?_ ht hy
      rw [hreached]
      exact Nat.dvd_add hd (ha x List.mem_cons_self)

end Sections

namespace LiteralPool

/-- The ranges of literals of `step` bytes each. -/
def extents (step : UInt32) (p : LiteralPool) : List Extent := p.literals.map fun lit => ⟨lit.offset.toNat, step.toNat⟩

namespace Spreads
variable {step offset stop : UInt32} {p p' : LiteralPool} {gap a : Nat}

theorem flush (h : Spreads step p offset p' stop) (h4 : 4 ∣ step.toNat) (ho : 4 ∣ offset.toNat) (hgap : 0 < gap) :
    Flush gap offset.toNat (p'.extents step) stop.toNat :=
  flush_arrange (sized_pointers h4 p.literals) ho h.literals fun _ _ _ => ⟨rfl, Nat.le_refl _, Nat.lt_add_of_pos_right hgap⟩

theorem dvd (h : Spreads step p offset p' stop) (h4 : 4 ∣ step.toNat) (ho : 4 ∣ offset.toNat) (hstep : a ∣ step.toNat)
    (hoffset : a ∣ offset.toNat) {lit : Literal} (hlit : lit ∈ p'.literals) : a ∣ lit.offset.toNat :=
  dvd_arrange (f := Literal.offset) (sized_pointers h4 p.literals) (fun _ _ => hstep) ho hoffset
    h.literals (fun _ _ => rfl) hlit

end Spreads

end LiteralPool

namespace DataSections

/-- The ranges of all data in their order. -/
def extents (d : DataSections) (pointerSize : UInt32) : List Extent :=
  d.words.extents 4 ++ d.codePointers.extents pointerSize ++ d.methodPointers.extents pointerSize ++
    d.switchTables.map (fun t => ⟨t.offset.toNat, t.payload.installedSize.toNat⟩) ++
    d.fillArrays.map (fun f => ⟨f.offset.toNat, f.size.toNat⟩)

/-! ### Layouts -/

/-- What a layout of data promises. -/
structure LaidOut (s d : DataSections) (codeSize pointerSize : UInt32) (layout : DataLayout) : Prop where
  dataOffset : IsLeast { n | 4 ∣ n ∧ codeSize.toNat ≤ n } layout.dataOffset.toNat
  totalSize : layout.totalSize.toNat = s.dataEnd codeSize.toNat pointerSize.toNat
  packed : Packed pointerSize.toNat layout.dataOffset.toNat (d.extents pointerSize) layout.totalSize.toNat
  within : ∀ e ∈ d.extents pointerSize, layout.dataOffset.toNat ≤ e.start ∧ e.stop ≤ layout.totalSize.toNat
  aligned : ∀ e ∈ d.extents pointerSize, 4 ∣ e.start
  pointers : ∀ lit ∈ d.codePointers.literals ++ d.methodPointers.literals, pointerSize.toNat ∣ lit.offset.toNat
  /-- Nothing but offsets changes. -/
  same : d.withoutOffsets = s.withoutOffsets

section LaidOut
variable {s d : DataSections} {codeSize pointerSize o₁ pointers o₂ o₃ o₄ : UInt32} {layout : DataLayout}

theorem Spread.packed (h : Spread s d codeSize pointerSize layout o₁ pointers o₂ o₃ o₄) (h4 : 4 ∣ pointerSize.toNat)
    (hpos : 0 < pointerSize.toNat) :
    Packed pointerSize.toNat layout.dataOffset.toNat (d.extents pointerSize) layout.totalSize.toNat := by
  obtain ⟨d₀, dp, d₂, d₃, d₄, -⟩ := h.stops h4
  have hge : 4 ≤ pointerSize.toNat := Nat.le_of_dvd hpos h4
  -- Words have no gaps. The one behind them is the alignment of the pointers.
  have hwords : Packed pointerSize.toNat layout.dataOffset.toNat (d.words.extents 4) pointers.toNat := by
    have hflush := h.words.flush (by decide) d₀ Nat.one_pos
    refine (hflush.packed (Nat.le_refl _) (Nat.lt_succ_self _)).widen ?_ ?_
    · exact h.aligned ▸ le_roundUp hpos
    · exact h.aligned ▸ roundUp_lt hpos
  have hcodes := h.codePointers.flush h4 (Nat.dvd_trans h4 dp) hpos
  have hmethods := h.methodPointers.flush h4 (Nat.dvd_trans h4 d₂) hpos
  have htables : Flush pointerSize.toNat o₃.toNat
      (d.switchTables.map fun t => ⟨t.offset.toNat, t.payload.installedSize.toNat⟩) o₄.toNat := by
    refine flush_arrange (sized_switchTables _) d₃ h.switchTables fun t _ o =>
      ⟨rfl, Nat.le_of_eq t.payload.installedSize_toNat, ?_⟩
    rw [← t.payload.installedSize_toNat]
    exact Nat.lt_add_of_pos_right hpos
  have hfills : Flush pointerSize.toNat o₄.toNat (d.fillArrays.map fun f => ⟨f.offset.toNat, f.size.toNat⟩)
      layout.totalSize.toNat := by
    refine flush_arrange (sized_fillArrays _) d₄ h.fillArrays fun f _ o => ⟨rfl, le_roundUp (by decide), ?_⟩
    exact Nat.lt_of_lt_of_le (roundUp_lt (by decide)) (Nat.add_le_add_left hge _)
  exact (((hwords.append hcodes).append hmethods).append htables).append hfills

theorem Spread.aligned_extents (h : Spread s d codeSize pointerSize layout o₁ pointers o₂ o₃ o₄)
    (h4 : 4 ∣ pointerSize.toNat) :
    ∀ e ∈ d.extents pointerSize, 4 ∣ e.start := by
  obtain ⟨d₀, dp, d₂, d₃, d₄, -⟩ := h.stops h4
  simp only [extents, LiteralPool.extents, List.forall_mem_append, List.forall_mem_map]
  refine ⟨⟨⟨⟨fun lit hlit => ?_, fun lit hlit => ?_⟩, fun lit hlit => ?_⟩, fun t ht => ?_⟩, fun f hf => ?_⟩
  · exact h.words.dvd (by decide) d₀ (by decide) d₀ hlit
  · exact h.codePointers.dvd h4 (Nat.dvd_trans h4 dp) h4 (Nat.dvd_trans h4 dp) hlit
  · exact h.methodPointers.dvd h4 (Nat.dvd_trans h4 d₂) h4 (Nat.dvd_trans h4 d₂) hlit
  · exact dvd_arrange (f := SwitchTable.offset) (sized_switchTables _) (fun t _ => t.payload.four_dvd_size) d₃ d₃
      h.switchTables
      (fun _ _ => rfl) ht
  · exact dvd_arrange (f := FillArray.offset) (sized_fillArrays _) (fun f _ => dvd_roundUp _ _) d₄ d₄ h.fillArrays
      (fun _ _ => rfl) hf

theorem Spread.aligned_pointers (h : Spread s d codeSize pointerSize layout o₁ pointers o₂ o₃ o₄)
    (h4 : 4 ∣ pointerSize.toNat) :
    ∀ lit ∈ d.codePointers.literals ++ d.methodPointers.literals, pointerSize.toNat ∣ lit.offset.toNat := by
  obtain ⟨-, dp, d₂, -⟩ := h.stops h4
  refine List.forall_mem_append.mpr ⟨fun lit hlit => ?_, fun lit hlit => ?_⟩
  · exact h.codePointers.dvd h4 (Nat.dvd_trans h4 dp) (Nat.dvd_refl _) dp hlit
  · exact h.methodPointers.dvd h4 (Nat.dvd_trans h4 d₂) (Nat.dvd_refl _) d₂ hlit

theorem Spread.laidOut (h : Spread s d codeSize pointerSize layout o₁ pointers o₂ o₃ o₄) (h4 : 4 ∣ pointerSize.toNat)
    (hpos : 0 < pointerSize.toNat) : LaidOut s d codeSize pointerSize layout where
  dataOffset := by
    rw [h.dataOffset]
    exact isLeast_roundUp (by decide)
  totalSize := (h.stops h4).2.2.2.2.2
  packed := h.packed h4 hpos
  within := fun _ he => (h.packed h4 hpos).within he
  aligned := h.aligned_extents h4
  pointers := h.aligned_pointers h4
  same := h.same

end LaidOut

/-- Data are laid out if their end can be counted in 32 bits, and otherwise the assembly ends. -/
theorem assign_lays_out_data (s : DataSections) (codeSize : UInt32) {pointerSize : UInt32}
    (hpow : isPowerOfTwo pointerSize = true) (hge : 4 ≤ pointerSize.toNat) :
    (s.dataEnd codeSize.toNat pointerSize.toNat < 2 ^ 32 →
      ∃ d layout, s.assign codeSize pointerSize = .ok (d, layout) ∧ LaidOut s d codeSize pointerSize layout) ∧
    (2 ^ 32 ≤ s.dataEnd codeSize.toNat pointerSize.toNat → s.assign codeSize pointerSize = .error .trap) := by
  obtain ⟨k, -, hk⟩ := exists_pow_of_isPowerOfTwo hpow
  have h4 : 4 ∣ pointerSize.toNat := by
    rw [hk] at hge ⊢
    exact Nat.pow_dvd_pow 2 ((Nat.pow_le_pow_iff_right (by decide)).mp (show 2 ^ 2 ≤ 2 ^ k from hge))
  have hpos := isPowerOfTwo_pos hpow
  constructor
  · intro hlt
    obtain ⟨d, layout, o₁, pointers, o₂, o₃, o₄, h⟩ := exists_spread hpow h4 hlt
    exact ⟨d, layout, (assign_eq_ok hpow h4).mpr ⟨o₁, pointers, o₂, o₃, o₄, h⟩, h.laidOut h4 hpos⟩
  · intro hover
    cases hrun : s.assign codeSize pointerSize with
    | ok result =>
      obtain ⟨d, layout⟩ := result
      obtain ⟨o₁, pointers, o₂, o₃, o₄, h⟩ := (assign_eq_ok hpow h4).mp hrun
      have hstop := (h.laidOut h4 hpos).totalSize
      have hlt := layout.totalSize.toNat_lt
      omega
    | error fault =>
      cases fault with
      | trap => rfl
      | refused e => exact absurd (s.assign_refuses (P := fun _ => False) codeSize pointerSize e hrun) not_false

/-- A word, a method pointer, a switch table and a fill-array of an odd size. -/
def mixed : DataSections where
  words := { literals := [{ value := 5 }], estimatedSize := 4 }
  methodPointers := { literals := [{ value := 7 }], estimatedSize := 8 }
  switchTables := [{ payload := .packed 7 [3], dexPc := 0 }]
  fillArrays := [{ units := #[0x300, 1, 3, 0, 0x201, 3], dexPc := 0, size := 11 }]

/-- With eight bytes to a pointer there is a gap of four bytes before the pointer, and one byte at the end. -/
theorem assign_lays_out_data_mixed : isPowerOfTwo 8 = true ∧ 4 ≤ (8 : UInt32).toNat ∧ ∃ d layout,
    mixed.assign 6 8 = .ok (d, layout) ∧ d.extents 8 = [⟨8, 4⟩, ⟨16, 8⟩, ⟨24, 4⟩, ⟨28, 11⟩] ∧ layout = ⟨8, 40⟩ ∧
    LaidOut mixed d 6 8 layout := by
  obtain ⟨hfits, -⟩ := assign_lays_out_data mixed 6 (show isPowerOfTwo 8 = true by decide) (by decide)
  obtain ⟨d, layout, hrun, hlaid⟩ := hfits (by decide)
  have hvalue : (mixed.assign 6 8).map (fun r => (r.1.extents 8, r.2)) =
    .ok ([⟨8, 4⟩, ⟨16, 8⟩, ⟨24, 4⟩, ⟨28, 11⟩], ⟨8, 40⟩) := rfl
  rw [hrun] at hvalue
  obtain ⟨hextents, hlayout⟩ := Prod.mk.inj (Except.ok.inj hvalue)
  exact ⟨by decide, by decide, d, layout, hrun, hextents, hlayout, hlaid⟩

end DataSections

end MethodAssembler
