import MethodAssembler.Proofs.LiteralImage

/-! # Loaded constants

The words of a pool only ever grow at the front, so what an instruction loads stays together in the pool, no matter what is
shared with other constants before or after. The image holds the words in this order behind the code: each constant is
there, a wide one with its high word right behind the low one. -/

namespace MethodAssembler

/-! ### Sharing -/

namespace LiteralPool

theorem suffix_shareWord (value : Int32) (values : List Int32) : values <:+ shareWord value values := by
  unfold shareWord
  split
  · exact List.suffix_rfl
  · exact List.suffix_cons _ _

theorem suffix_shareWide (low high : Int32) (values : List Int32) : values <:+ shareWide low high values := by
  unfold shareWide
  split
  · exact List.suffix_rfl
  · exact ⟨[low, high], rfl⟩

theorem mem_shareWord (value : Int32) (values : List Int32) : value ∈ shareWord value values := by
  unfold shareWord
  split
  · assumption
  · exact List.mem_cons_self

theorem infix_shareWide (low high : Int32) (values : List Int32) : [low, high] <:+: shareWide low high values := by
  unfold shareWide
  split
  · assumption
  · exact ⟨[], values, rfl⟩

end LiteralPool

namespace StreamItem

/-- The words of the constant that an instruction loads, in the order of memory. -/
def loaded : StreamItem → List Int32
  | .loadWord _ _ value => [value]
  | .loadWide _ _ low high => [low, high]
  | _ => []

/-- An instruction leaves the words of a pool together, whatever it loads. -/
theorem suffix_shareWords (item : StreamItem) (values : List Int32) : values <:+ item.shareWords values := by
  cases item with
  | loadWord opcode dexPc value => exact LiteralPool.suffix_shareWord value values
  | loadWide opcode dexPc low high => exact LiteralPool.suffix_shareWide low high values
  | label | op | call | invokeCode | invokeMethod | switch | exportPc | align4 => exact List.suffix_rfl

theorem infix_shareWords (item : StreamItem) (values : List Int32) : item.loaded <:+: item.shareWords values := by
  cases item with
  | loadWord opcode dexPc value =>
    obtain ⟨pre, post, hsplit⟩ := List.append_of_mem (LiteralPool.mem_shareWord value values)
    exact ⟨pre, post, by rw [loaded, List.append_assoc]; exact hsplit.symm⟩
  | loadWide opcode dexPc low high => exact LiteralPool.infix_shareWide low high values
  | label | op | call | invokeCode | invokeMethod | switch | exportPc | align4 => exact List.nil_infix

end StreamItem

theorem suffix_foldl_shareWords (items : List StreamItem) (values : List Int32) :
    values <:+ items.foldl StreamItem.shareWords values := by
  induction items generalizing values with
  | nil => exact List.suffix_rfl
  | cons item items ih => exact (item.suffix_shareWords values).trans (ih _)

/-- What an instruction of the stream loads stands in the pool of the whole stream. -/
theorem infix_foldl_shareWords {items : List StreamItem} {item : StreamItem} (h : item ∈ items) (values : List Int32) :
    item.loaded <:+: items.foldl StreamItem.shareWords values := by
  obtain ⟨before, after, rfl⟩ := List.append_of_mem h
  rw [List.foldl_append, List.foldl_cons]
  exact (item.infix_shareWords _).trans (suffix_foldl_shareWords after _).isInfix

/-! ### Words in the image -/

theorem StandsAt.append {code : Bytes} {offset : Nat} {xs ys : List UInt8} (hx : StandsAt code offset xs)
    (hy : StandsAt code (offset + xs.length) ys) : StandsAt code offset (xs ++ ys) := by
  obtain ⟨rest, hrest⟩ := hx
  obtain ⟨rest', hrest'⟩ := hy
  rw [← List.drop_drop, ← hrest, List.drop_left] at hrest'
  exact ⟨rest', by rw [List.append_assoc, hrest', hrest]⟩

theorem littleEndian_append (m n a b : Nat) (ha : a < 256 ^ m) :
    littleEndian m a ++ littleEndian n b = littleEndian (m + n) (a + 256 ^ m * b) := by
  induction m generalizing a with
  | zero =>
    obtain rfl : a = 0 := by simpa using ha
    simp [littleEndian]
  | succ m ih =>
    have hlow : (a + 256 ^ (m + 1) * b) % 256 = a % 256 := by
      rw [Nat.pow_succ', Nat.mul_assoc, Nat.add_mul_mod_self_left]
    have hhigh : (a + 256 ^ (m + 1) * b) / 256 = a / 256 + 256 ^ m * b := by
      rw [Nat.pow_succ', Nat.mul_assoc, Nat.add_mul_div_left _ _ (by decide)]
    have hdiv : a / 256 < 256 ^ m := Nat.div_lt_of_lt_mul (by rwa [Nat.pow_succ'] at ha)
    rw [Nat.succ_add, littleEndian, littleEndian, List.cons_append, ih _ hdiv, hlow, hhigh]

/-- The number in the eight bytes at a place. -/
def Bytes.wide (code : Bytes) (place : Nat) : Checked UInt64 :=
  return .ofNat (ofLittleEndian (← code.slice place 8).toList)

/-- A wide number is read where its two words stand. -/
theorem Bytes.wide_of_standsAt {code : Bytes} {place : Nat} {low high : UInt32}
    (hlow : StandsAt code place (littleEndian 4 low.toNat))
    (hhigh : StandsAt code (place + 4) (littleEndian 4 high.toNat)) :
    code.wide place = .ok (.ofNat (low.toNat + 2 ^ 32 * high.toNat)) := by
  have hl := low.toNat_lt
  have hh := high.toNat_lt
  have hboth : StandsAt code place (littleEndian 8 (low.toNat + 256 ^ 4 * high.toNat)) := by
    rw [← littleEndian_append 4 4 _ _ hl]
    exact hlow.append (by rwa [littleEndian_length])
  rw [wide, slice_of_standsAt hboth (littleEndian_length _ _).symm (by decide), Checked.ok_bind,
    ofLittleEndian_littleEndian, Nat.mod_eq_of_lt (show _ < 256 ^ 8 by omega)]
  rfl

namespace Description
variable {d : Description} {config : Config} {out : MethodOutput}

/-- `size` bytes at an offset lie among the word literals of the image, which follow the code. -/
def AmongWords (d : Description) (offset size : Nat) : Prop :=
  4 ∣ offset ∧ 4 * machineCount d.instructions ≤ offset ∧
    offset + size ≤ 4 * machineCount d.instructions + 4 * d.wordLiterals.length

/-- The word literals stand one behind the other. -/
theorem standsAt_wordLiteral {l : Laid} (hl : l.Of d config) (hf : l.Finished d config out) {k : Nat} {value : Int32}
    (hk : d.wordLiterals[k]? = some value) :
    StandsAt out.method.code (4 * machineCount d.instructions + 4 * k) (littleEndian 4 value.toUInt32.toNat) := by
  have hliterals := hl.literals
  have hlt := (List.getElem?_eq_some_iff.mp hk).1
  rw [← hliterals.words, LiteralPool.values, List.getElem?_map] at hk
  obtain ⟨lit, hlit, rfl⟩ := Option.map_eq_some_iff.mp hk
  have hoffset := congrArg (·[k]?) hliterals.wordOffsets
  simp only [List.getElem?_map, hlit, Option.map_some, List.getElem?_range' hlt, Option.some.injEq] at hoffset
  rw [← hoffset]
  exact hf.standsAt_literal hl (List.mem_append_left _ (List.mem_of_getElem? hlit))

/-- The constant that an instruction loads stands among the word literals. -/
theorem standsAt_loaded {l : Laid} (hl : l.Of d config) (hf : l.Finished d config out) {item : StreamItem}
    (h : item ∈ d.instructions) : ∃ offset, d.AmongWords offset (4 * item.loaded.length) ∧
      ∀ i value, item.loaded[i]? = some value →
        StandsAt out.method.code (offset + 4 * i) (littleEndian 4 value.toUInt32.toNat) := by
  obtain ⟨pre, post, hsplit⟩ : item.loaded <:+: d.wordLiterals := infix_foldl_shareWords h []
  have hlength := congrArg List.length hsplit
  rw [List.length_append, List.length_append] at hlength
  refine ⟨4 * machineCount d.instructions + 4 * pre.length, ⟨by omega, by omega, by omega⟩, fun i value hi => ?_⟩
  have hget : d.wordLiterals[pre.length + i]? = some value := by
    have hlt := (List.getElem?_eq_some_iff.mp hi).1
    rw [← hsplit, List.append_assoc, List.getElem?_append_right (Nat.le_add_right _ _), Nat.add_sub_cancel_left,
      List.getElem?_append_left hlt, hi]
  rw [Nat.add_assoc, ← Nat.mul_add]
  exact standsAt_wordLiteral hl hf hget

/-- Every constant that a compiled method loads is in its image: a word at an aligned offset among the word literals, and a
    wide constant there as two words, low word first, which together spell it. -/
theorem compile_loadedConstants (h : (d.compile config).outcome = .ok out) :
    (∀ opcode pc value, StreamItem.loadWord opcode pc value ∈ d.instructions →
      ∃ offset, d.AmongWords offset 4 ∧ out.method.code.word offset = .ok value.toUInt32) ∧
    ∀ opcode pc low high, StreamItem.loadWide opcode pc low high ∈ d.instructions →
      ∃ offset, d.AmongWords offset 8 ∧ out.method.code.word offset = .ok low.toUInt32 ∧
        out.method.code.word (offset + 4) = .ok high.toUInt32 ∧
        out.method.code.wide offset = .ok (.ofNat (low.toUInt32.toNat + 2 ^ 32 * high.toUInt32.toNat)) := by
  rw [compile_outcome] at h
  obtain ⟨l, hl, hfinish⟩ := of_outline h
  have hf := Laid.finished_of_finish hfinish
  refine ⟨fun opcode pc value hmem => ?_, fun opcode pc low high hmem => ?_⟩
  · obtain ⟨offset, hamong, hstands⟩ := standsAt_loaded hl hf hmem
    exact ⟨offset, hamong, Bytes.word_of_standsAt (hstands 0 value rfl)⟩
  · obtain ⟨offset, hamong, hstands⟩ := standsAt_loaded hl hf hmem
    have hlow := hstands 0 low rfl
    have hhigh := hstands 1 high rfl
    exact ⟨offset, hamong, Bytes.word_of_standsAt hlow, Bytes.word_of_standsAt hhigh, Bytes.wide_of_standsAt hlow hhigh⟩

/-- A method whose first wide constant is found across two words that were added apart, and whose second has equal words. -/
def constantSample : Description where
  name := "constants"
  instructions := [.loadWord 0x40 0 2, .loadWord 0x40 1 1, .loadWide 0x41 2 1 2, .loadWide 0x41 3 2 2, .loadWord 0x40 4 2]

/-- The pool of the sample has four words behind 20 bytes of code, so the constant can only stand at 28. -/
theorem compile_loadedConstants_sample : constantSample.wordLiterals = [2, 2, 1, 2] ∧
    ∃ out offset, (constantSample.compile {}).outcome = .ok out ∧ constantSample.AmongWords offset 8 ∧
      out.method.code.word offset = .ok 1 ∧ out.method.code.word (offset + 4) = .ok 2 ∧
      out.method.code.wide offset = .ok 0x200000001 := by
  obtain ⟨out, hout⟩ : ∃ out, (constantSample.compile {}).outcome = .ok out := Checked.exists_of_isOk (by decide +kernel)
  have hmem : StreamItem.loadWide 0x41 2 1 2 ∈ constantSample.instructions := by decide
  obtain ⟨offset, hamong, hlow, hhigh, hwide⟩ := (compile_loadedConstants hout).2 0x41 2 1 2 hmem
  exact ⟨by decide, out, offset, hout, hamong, hlow, hhigh, hwide⟩

end Description

end MethodAssembler
