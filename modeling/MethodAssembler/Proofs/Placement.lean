import MethodAssembler.Proofs.Words

/-! # Placing bytes in an image

An image grows by placements: zeros up to an offset, and then bytes. When the placements ascend without overlapping
(`Ascends`), each of them stands at its offset in the finished image, and whatever no placement covers is zero. -/

namespace MethodAssembler

/-- Bytes with the offset where they belong. -/
structure Placement where
  offset : UInt32
  bytes : List UInt8
deriving DecidableEq, Repr

namespace Placement

/-- Where the bytes start, as a number. -/
def start (p : Placement) : Nat := p.offset.toNat

/-- Where the bytes end. -/
def stop (p : Placement) : Nat := p.offset.toNat + p.bytes.length

end Placement

/-- The bytes stand in the image from an offset on. -/
def StandsAt (code : Bytes) (offset : Nat) (bytes : List UInt8) : Prop := bytes <+: code.toList.drop offset

/-- One placement behind the other, all between `start` and `stop`. -/
def Ascends (start : Nat) : List Placement → (stop : Nat) → Prop
  | [], stop => start ≤ stop
  | p :: rest, stop => start ≤ p.start ∧ Ascends p.stop rest stop

/-- Some placement covers the offset. -/
def Covers (ps : List Placement) (offset : Nat) : Prop := ∃ p ∈ ps, p.start ≤ offset ∧ offset < p.stop

namespace Ascends
variable {start middle stop : Nat} {ps qs : List Placement}

theorem le (h : Ascends start ps stop) : start ≤ stop := by
  induction ps generalizing start with
  | nil => exact h
  | cons p ps ih =>
    have hstop := ih h.2
    have hstart := h.1
    simp only [Placement.start, Placement.stop] at hstart hstop
    omega

theorem append (h₁ : Ascends start ps middle) (h₂ : Ascends middle qs stop) : Ascends start (ps ++ qs) stop := by
  induction ps generalizing start with
  | nil =>
    cases qs with
    | nil => exact Nat.le_trans h₁ h₂
    | cons q qs => exact ⟨Nat.le_trans h₁ h₂.1, h₂.2⟩
  | cons p ps ih => exact ⟨h₁.1, ih h₁.2⟩

theorem mono (h : Ascends start ps stop) {start' stop' : Nat} (hs : start' ≤ start) (ht : stop ≤ stop') :
    Ascends start' ps stop' := by
  induction ps generalizing start start' with
  | nil => exact Nat.le_trans hs (Nat.le_trans h ht)
  | cons p ps ih => exact ⟨Nat.le_trans hs h.1, ih h.2 (Nat.le_refl _)⟩

theorem left (h : Ascends start (ps ++ qs) stop) : Ascends start ps stop := by
  induction ps generalizing start with
  | nil => exact h.le
  | cons p ps ih => exact ⟨h.1, ih h.2⟩

end Ascends

namespace Bytes

/-! ### One placement -/

/-- Zeros up to the offset of a placement, and then its bytes. -/
def put (code : Bytes) (p : Placement) : Bytes := code.padTo p.offset ++ p.bytes

variable {code : Bytes} {p : Placement}

theorem append_append_list (code : Bytes) (xs ys : List UInt8) : code ++ xs ++ ys = code ++ (xs ++ ys) := by
  apply Array.toList_inj.mp
  simp

theorem padTo_toList (code : Bytes) (offset : UInt32) :
    (code.padTo offset).toList = code.toList ++ List.replicate (offset.toNat - code.size) 0 := by
  rw [padTo]
  split
  · simp
  · rename_i h
    simp [Nat.sub_eq_zero_of_le (Nat.not_lt.mp h)]

theorem padTo_size {offset : UInt32} (h : code.size ≤ offset.toNat) : (code.padTo offset).size = offset.toNat := by
  rw [← Array.length_toList, padTo_toList, List.length_append, List.length_replicate, Array.length_toList]
  omega

theorem put_toList (code : Bytes) (p : Placement) :
    (code.put p).toList = code.toList ++ List.replicate (p.start - code.size) 0 ++ p.bytes := by
  simp [put, padTo_toList, Placement.start]

theorem put_size (h : code.size ≤ p.start) : (code.put p).size = p.stop := by
  rw [← Array.length_toList, put_toList, List.length_append, List.length_append, List.length_replicate,
    Array.length_toList, Placement.stop]
  rw [Placement.start] at h ⊢
  omega

theorem prefix_put (code : Bytes) (p : Placement) : code.toList <+: (code.put p).toList := by
  rw [put_toList, List.append_assoc]
  exact List.prefix_append _ _

theorem standsAt_put (h : code.size ≤ p.start) : StandsAt (code.put p) p.start p.bytes := by
  have hlen : (code.toList ++ List.replicate (p.start - code.size) 0).length = p.start := by
    simp only [List.length_append, List.length_replicate, Array.length_toList]
    omega
  simp only [StandsAt, put_toList, List.drop_left' hlen, List.prefix_rfl]

theorem put_gap (h : code.size ≤ p.start) {k : Nat} (hk : code.size ≤ k) (hk' : k < p.start) :
    (code.put p)[k]? = some 0 := by
  rw [← Array.getElem?_toList, put_toList, List.append_assoc,
    List.getElem?_append_right (by rwa [Array.length_toList]), Array.length_toList,
    List.getElem?_append_left (by rw [List.length_replicate]; omega), List.getElem?_replicate]
  exact if_pos (by omega)

end Bytes

theorem StandsAt.mono {code code' : Bytes} {offset : Nat} {bytes : List UInt8} (h : StandsAt code offset bytes)
    (hp : code.toList <+: code'.toList) : StandsAt code' offset bytes := by
  obtain ⟨rest, hrest⟩ := hp
  rw [StandsAt, ← hrest, List.drop_append]
  exact h.trans (List.prefix_append _ _)

theorem StandsAt.append_left {code : Bytes} {offset : Nat} {xs ys : List UInt8} (h : StandsAt code offset (xs ++ ys)) :
    StandsAt code offset xs := (List.prefix_append xs ys).trans h

theorem StandsAt.append_right {code : Bytes} {offset : Nat} {xs ys : List UInt8} (h : StandsAt code offset (xs ++ ys)) :
    StandsAt code (offset + xs.length) ys := by
  obtain ⟨rest, hrest⟩ := h
  refine ⟨rest, ?_⟩
  rw [← List.drop_drop, ← hrest, List.append_assoc, List.drop_left]

/-! ### All placements -/

namespace Bytes

/-- An image with all placements, one after the other. -/
def putAll (code : Bytes) (ps : List Placement) : Bytes := ps.foldl put code

variable {code : Bytes} {ps : List Placement} {stop : Nat}

theorem putAll_append (code : Bytes) (ps qs : List Placement) : code.putAll (ps ++ qs) = (code.putAll ps).putAll qs :=
  List.foldl_append

theorem prefix_putAll (code : Bytes) (ps : List Placement) : code.toList <+: (code.putAll ps).toList := by
  induction ps generalizing code with
  | nil => exact List.prefix_rfl
  | cons p ps ih => exact (prefix_put code p).trans (ih _)

theorem ascends_putAll {qs : List Placement} (h : Ascends code.size (ps ++ qs) stop) :
    Ascends (code.putAll ps).size qs stop := by
  induction ps generalizing code with
  | nil => exact h
  | cons p ps ih =>
    refine ih ?_
    rw [put_size h.1]
    exact h.2

theorem size_putAll_concat {p : Placement} (h : Ascends code.size (ps ++ [p]) stop) :
    (code.putAll (ps ++ [p])).size = p.stop := by
  rw [putAll_append]
  exact put_size (ascends_putAll h).1

theorem standsAt_putAll (h : Ascends code.size ps stop) {p : Placement} (hp : p ∈ ps) :
    StandsAt (code.putAll ps) p.start p.bytes := by
  induction ps generalizing code with
  | nil => cases hp
  | cons q ps ih =>
    rcases List.mem_cons.mp hp with rfl | hp
    · exact (standsAt_put h.1).mono (prefix_putAll _ _)
    · refine ih ?_ hp
      rw [put_size h.1]
      exact h.2

/-- What lies behind the old end of the image and is covered by no placement is zero. -/
theorem putAll_gap (h : Ascends code.size ps stop) {k : Nat} (hk : code.size ≤ k) (hk' : k < (code.putAll ps).size)
    (hc : ¬Covers ps k) : (code.putAll ps)[k]? = some 0 := by
  induction ps generalizing code with
  | nil => exact absurd hk' (Nat.not_lt.mpr hk)
  | cons p ps ih =>
    have hsize := put_size h.1
    by_cases hstop : p.stop ≤ k
    · refine ih ?_ (hsize ▸ hstop) hk' fun ⟨q, hq, hin⟩ => hc ⟨q, List.mem_cons_of_mem _ hq, hin⟩
      rw [hsize]
      exact h.2
    · have hstart : k < p.start :=
        Nat.lt_of_not_le fun hge => hc ⟨p, List.mem_cons_self, hge, Nat.not_le.mp hstop⟩
      have hlt : k < (code.put p).size := by omega
      obtain ⟨rest, hrest⟩ := prefix_putAll (code.put p) ps
      show ((code.put p).putAll ps)[k]? = some 0
      rw [← Array.getElem?_toList, ← hrest, List.getElem?_append_left hlt, Array.getElem?_toList]
      exact put_gap h.1 hk hstart

end Bytes

end MethodAssembler
