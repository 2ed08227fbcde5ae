import MethodAssembler.Proofs.SwitchDispatch

/-! # Literals in the image

A layout puts the literals of a method behind its code, four bytes apart: first the words, then the code pointers and the
method pointers. In the image each of them stands at its offset. -/

namespace MethodAssembler

/-! ### Offsets -/

namespace LiteralPool.Spreads
variable {p p' : LiteralPool} {offset stop : UInt32}

theorem offsets (h : p.Spreads 4 offset p' stop) :
    p'.literals.map (·.offset.toNat) = List.range' offset.toNat p.size 4 := by
  have hliterals := h.literals
  rw [size]
  generalize p.literals = xs, p'.literals = ys at hliterals ⊢
  clear h
  induction xs generalizing offset ys with
  | nil =>
    cases hliterals
    rfl
  | cons lit xs ih =>
    obtain ⟨reached, tail, hr, ht, rfl⟩ := arrange_cons.mp hliterals
    have hreached : reached.toNat = offset.toNat + 4 := addWords_eq_ok.mp hr
    rw [List.map_cons, ih _ ht, hreached, List.length_cons, List.range'_succ]

theorem values (h : p.Spreads 4 offset p' stop) : p'.values = p.values := by
  refine map_arrange (fun _ _ => ?_) h.literals
  rfl

theorem size_eq (h : p.Spreads 4 offset p' stop) : p'.size = p.size := by
  rw [← length_values, h.values, length_values]

theorem points {targets : List (UInt32 × InvokeKind)} (h : p.Spreads 4 offset p' stop) (hp : p.Points targets) :
    p'.Points targets := by
  obtain ⟨distinct, hnodup, hmem, hliterals⟩ := hp
  refine ⟨distinct, hnodup, hmem, Eq.trans (map_arrange (fun _ _ => ?_) h.literals) hliterals⟩
  rfl

end LiteralPool.Spreads

/-- The words that the pool of a method holds, in the order of the image. -/
def Description.wordLiterals (d : Description) : List Int32 := d.instructions.foldl StreamItem.shareWords []

/-- The literals of a laid-out method, and where they stand. -/
structure Laid.Literals (d : Description) (l : Laid) : Prop where
  words : l.data.words.values = d.wordLiterals
  wordOffsets : l.data.words.literals.map (·.offset.toNat) =
    List.range' (4 * machineCount d.instructions) d.wordLiterals.length 4
  codePointers : l.data.codePointers.Points (d.instructions.filterMap StreamItem.codeTarget?)
  methodPointers : l.data.methodPointers.Points (d.instructions.filterMap StreamItem.methodTarget?)
  pointerOffsets : (l.data.codePointers.literals ++ l.data.methodPointers.literals).map (·.offset.toNat) =
    List.range' (4 * machineCount d.instructions + 4 * d.wordLiterals.length)
      (l.data.codePointers.size + l.data.methodPointers.size) 4

variable {d : Description} {config : Config} {l : Laid} {out : MethodOutput}

theorem Laid.Of.literals (h : l.Of d config) : l.Literals d := by
  obtain ⟨o₁, o₂, o₃, o₄, hspread⟩ := DataSections.spread_of_assign h.data
  have hentered := h.draft.data
  have hw : l.filling.draft.data.words.Spreads 4 l.layout.dataOffset l.data.words o₁ := hspread.words
  have hc : l.filling.draft.data.codePointers.Spreads 4 o₁ l.data.codePointers o₂ := hspread.codePointers
  have hm : l.filling.draft.data.methodPointers.Spreads 4 o₂ l.data.methodPointers o₃ := hspread.methodPointers
  have hwords : l.filling.draft.data.words.size = d.wordLiterals.length := by
    rw [← LiteralPool.length_values, hentered.words]
    rfl
  have hdata := h.dataOffset_eq
  obtain ⟨d₀, d₁, -⟩ := hspread.stops (by decide)
  have h₁ : o₁.toNat = l.layout.dataOffset.toNat + 4 * l.filling.draft.data.words.size := hw.stop_eq (by decide) d₀
  have h₂ : o₂.toNat = o₁.toNat + 4 * l.filling.draft.data.codePointers.size := hc.stop_eq (by decide) d₁
  refine ⟨hw.values.trans hentered.words, ?_, hc.points hentered.codePointers, hm.points hentered.methodPointers, ?_⟩
  · rw [hw.offsets, hdata, hwords]
  · rw [List.map_append, hc.offsets, hm.offsets, hc.size_eq, hm.size_eq, ← hdata, ← hwords, ← h₁, h₂]
    exact List.range'_append

/-! ### Bytes -/

theorem StandsAt.stop_le {code : Bytes} {offset : Nat} {bytes : List UInt8} (h : StandsAt code offset bytes)
    (hpos : 0 < bytes.length) : offset + bytes.length ≤ code.size := by
  have hle : bytes.length ≤ code.size - offset := by simpa using List.IsPrefix.length_le h
  omega

/-- Every literal of a compiled method stands in its image. -/
theorem Laid.Finished.standsAt_literal (h : l.Finished d config out) (hl : l.Of d config) {lit : Literal}
    (hlit : lit ∈ l.data.words.literals ++ (l.data.codePointers.literals ++ l.data.methodPointers.literals)) :
    StandsAt out.method.code lit.offset.toNat (littleEndian 4 lit.value.toUInt32.toNat) := by
  refine h.standsAt hl (p := lit.placement) ?_
  simp only [placedBytes, DataSections.placements, LiteralPool.placements, List.mem_append, List.mem_map] at hlit ⊢
  rcases hlit with hword | hcode | hmethod
  · exact .inr (.inl (.inr ⟨lit, hword, rfl⟩))
  · exact .inr (.inr (.inl ⟨lit, hcode, rfl⟩))
  · exact .inr (.inr (.inr (.inl ⟨lit, hmethod, rfl⟩)))

end MethodAssembler
