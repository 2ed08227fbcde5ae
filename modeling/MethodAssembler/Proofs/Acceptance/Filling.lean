import MethodAssembler.Proofs.FrameSize
import MethodAssembler.Proofs.Outline

/-! # Which descriptions fill a unit

As long as the literals of a method can be counted in 32 bits, filling a unit refuses a description for three reasons only:
a switch names no table, there is no room for an instruction, or the frame is too large. -/

namespace MethodAssembler

/-! ### Room for instructions -/

/-- There is room for `count` instructions. -/
def Within (limit : Option Nat) (count : Nat) : Prop := ∀ most, limit = some most → count ≤ most

theorem Within.mono {limit : Option Nat} {count count' : Nat} (h : Within limit count') (hle : count ≤ count') :
    Within limit count := fun most hmost => Nat.le_trans hle (h most hmost)

namespace InstrList
variable {limit : Option Nat} {count : Nat}

theorem reserve_decides (limit : Option Nat) (count : Nat) :
    Checked.Decides (Within limit (count + 1)) (fun n => n = count + 1) (reserve limit count) := by
  cases limit with
  | none => exact ⟨nofun, rfl⟩
  | some most =>
    have hwithin : Within (some most) (count + 1) ↔ ¬most ≤ count := by
      rw [Nat.not_le]
      exact ⟨fun h => h most rfl, fun h _ hmost => Option.some.inj hmost ▸ h⟩
    rw [hwithin, ← and_true (¬most ≤ count)]
    exact Checked.Decides.refuse fun _ => ⟨trivial, rfl⟩

theorem reserveAll_decides (h : Within limit count) (more : Nat) :
    Checked.Decides (Within limit (count + more)) (fun n => n = count + more) (reserveAll limit more count) := by
  induction more generalizing count with
  | zero => exact ⟨h, rfl⟩
  | succ more ih =>
    have hrest : ∀ n, Within limit (count + 1) → n = count + 1 →
        Checked.Decides (Within limit (count + (more + 1))) (fun m => m = count + (more + 1))
          (reserveAll limit more n) := by
      rintro _ hw rfl
      rw [← Nat.add_assoc, Nat.add_right_comm]
      exact ih hw
    exact ((reserve_decides limit count).bind hrest).congr
      (and_iff_right_of_imp fun hw => hw.mono (by omega)) fun _ _ hn => hn

end InstrList

/-! ### Literals -/

/-- What the literals of a stream take in the image: four bytes for each word and each distinct pointer. -/
def literalBytes (items : List StreamItem) : Nat :=
  4 * (items.foldl StreamItem.shareWords []).length + 4 * (items.filterMap StreamItem.codeTarget?).dedup.length +
    4 * (items.filterMap StreamItem.methodTarget?).dedup.length

section Literals
variable {items more : List StreamItem} {item : StreamItem} {data : DataSections} {tables : Nat}

theorem DataSections.Entered.literalBytes_eq (h : data.Entered items) :
    literalBytes items = 4 * data.words.size + 4 * data.codePointers.size + 4 * data.methodPointers.size := by
  rw [literalBytes, ← h.words, LiteralPool.length_values, ← h.codePointers.size, ← h.methodPointers.size]

theorem length_le_shareWords (values : List Int32) (items : List StreamItem) :
    values.length ≤ (items.foldl StreamItem.shareWords values).length := by
  induction items generalizing values with
  | nil => exact Nat.le_refl _
  | cons item items ih =>
    refine Nat.le_trans ?_ (ih (item.shareWords values))
    cases item with
    | loadWord opcode dexPc value => exact LiteralPool.length_le_shareWord value values
    | loadWide opcode dexPc low high => exact LiteralPool.length_le_shareWide low high values
    | label | op | call | invokeCode | invokeMethod | switch | exportPc | align4 => exact Nat.le_refl _

theorem length_dedup_le {α : Type} [DecidableEq α] {xs ys : List α} (h : xs ⊆ ys) : xs.dedup.length ≤ ys.dedup.length :=
  xs.nodup_dedup.length_le_of_subset fun _ hx => List.mem_dedup.mpr (h (List.mem_dedup.mp hx))

theorem literalBytes_le (items more : List StreamItem) : literalBytes items ≤ literalBytes (items ++ more) := by
  have hwords := length_le_shareWords (items.foldl StreamItem.shareWords []) more
  have hcodes : (items.filterMap StreamItem.codeTarget?).dedup.length ≤
      ((items ++ more).filterMap StreamItem.codeTarget?).dedup.length :=
    length_dedup_le (by rw [List.filterMap_append]; exact List.subset_append_left _ _)
  have hmethods : (items.filterMap StreamItem.methodTarget?).dedup.length ≤
      ((items ++ more).filterMap StreamItem.methodTarget?).dedup.length :=
    length_dedup_le (by rw [List.filterMap_append]; exact List.subset_append_left _ _)
  rw [literalBytes, literalBytes, List.foldl_append]
  omega

/-- A switch must name one of the tables of the method. -/
def StreamItem.Names (tables : Nat) : StreamItem → Prop
  | .switch _ _ table => table < tables
  | _ => True

/-- Entering the literals of an instruction fails only if it is a switch without a table. -/
theorem StreamItem.enterData_decides (h : data.Entered items) (hlt : literalBytes (items ++ [item]) < 2 ^ 32) :
    Checked.Decides (item.Names tables) (fun _ => True) (item.enterData tables data) := by
  rw [literalBytes, List.foldl_append, List.filterMap_append, List.filterMap_append, ← h.words] at hlt
  cases item with
  | invokeCode opcode dexPc target kind =>
    have hfit : 4 * (items.filterMap codeTarget? ++ [(target, kind)]).dedup.length < 2 ^ 32 := by
      simp only [List.filterMap_cons, codeTarget?, List.filterMap_nil] at hlt
      omega
    obtain ⟨id, pool, hshare⟩ := LiteralPool.sharePointer_of_lt h.codesEstimated h.codePointers hfit
    rw [enterData, hshare]
    exact ⟨trivial, trivial⟩
  | invokeMethod opcode dexPc target kind =>
    have hfit : 4 * (items.filterMap methodTarget? ++ [(target, kind)]).dedup.length < 2 ^ 32 := by
      simp only [List.filterMap_cons, methodTarget?, List.filterMap_nil] at hlt
      omega
    obtain ⟨id, pool, hshare⟩ := LiteralPool.sharePointer_of_lt h.methodsEstimated h.methodPointers hfit
    rw [enterData, hshare]
    exact ⟨trivial, trivial⟩
  | loadWord opcode dexPc value =>
    simp only [List.foldl_cons, List.foldl_nil, shareWords, LiteralPool.shareWord] at hlt
    rw [enterData]
    split
    · rename_i hnew
      rw [if_neg ((data.words.findNear_zero value).mp hnew), List.length_cons, LiteralPool.length_values] at hlt
      obtain ⟨id, pool, hadd⟩ := LiteralPool.add_of_lt h.wordsEstimated (by omega) { value }
      rw [LiteralPool.addWord, hadd]
      exact ⟨trivial, trivial⟩
    · exact ⟨trivial, trivial⟩
  | loadWide opcode dexPc low high =>
    simp only [List.foldl_cons, List.foldl_nil, shareWords, LiteralPool.shareWide] at hlt
    rw [enterData]
    dsimp only
    split
    · rename_i hnew
      -- The search may have changed a tag, but neither the size of the pool nor its estimate.
      rw [if_neg ((data.words.findWide_isNone low high).mp hnew), List.length_cons, List.length_cons,
        LiteralPool.length_values, ← LiteralPool.size_findWide data.words low high] at hlt
      obtain ⟨id, pool, hadd⟩ := LiteralPool.addWide_of_lt (h.wordsEstimated.findWide low high) (by omega) low high
      rw [hadd]
      exact ⟨trivial, trivial⟩
    · exact ⟨trivial, trivial⟩
  | switch opcode dexPc table =>
    rw [enterData, Names, ← Nat.not_le, ← and_true (¬tables ≤ table)]
    exact Checked.Decides.refuse fun _ => ⟨trivial, trivial⟩
  | label | op | call | exportPc | align4 => exact ⟨trivial, trivial⟩

end Literals

/-! ### The stream -/

/-- How many records are allocated for an instruction: a call has a safepoint behind it. -/
def StreamItem.recordCount : StreamItem → Nat
  | .call .. | .invokeCode .. | .invokeMethod .. => 2
  | _ => 1

theorem StreamItem.length_records (item : StreamItem) : item.records.length = item.recordCount := by
  cases item <;> rfl

theorem length_flatMap_records (items : List StreamItem) :
    (items.flatMap StreamItem.records).length = (items.map StreamItem.recordCount).sum := by
  simp only [List.length_flatMap, StreamItem.length_records]

namespace Draft
variable {limit : Option Nat} {tables : Nat} {items : List StreamItem} {item : StreamItem} {s : Draft}

theorem enter_decides (h : Of items s) (hlt : literalBytes (items ++ [item]) < 2 ^ 32)
    (hw : Within limit s.records.length) :
    Checked.Decides (item.Names tables ∧ Within limit (s.records.length + item.recordCount))
      (fun s' => Of (items ++ [item]) s' ∧ s'.records.length = s.records.length + item.recordCount)
      (s.enter limit tables item) := by
  have henter : Checked.Decides (item.Names tables ∧ Within limit (s.records.length + item.recordCount))
      (fun s' => s'.records.length = s.records.length + item.recordCount) (s.enter limit tables item) := by
    refine (StreamItem.enterData_decides h.data hlt).bind fun data _ _ => ?_
    rw [← item.length_records]
    exact (InstrList.reserveAll_decides hw item.records.length).bind_ok fun _ _ _ => List.length_append
  exact henter.known.congr Iff.rfl fun s' _ hs' => ⟨h.enter hs'.1, hs'.2⟩

theorem ofStream_decides {more : List StreamItem} (h : Of items s) (hlt : literalBytes (items ++ more) < 2 ^ 32)
    (hw : Within limit s.records.length) :
    Checked.Decides ((∀ item ∈ more, item.Names tables) ∧
        Within limit (s.records.length + (more.map StreamItem.recordCount).sum))
      (fun s' => Of (items ++ more) s') (s.ofStream limit tables more) := by
  induction more generalizing items s with
  | nil => exact ⟨⟨nofun, hw⟩, by rwa [List.append_nil]⟩
  | cons item more ih =>
    rw [List.append_cons] at hlt ⊢
    have hone := Nat.lt_of_le_of_lt (literalBytes_le (items ++ [item]) more) hlt
    have hrest : ∀ s', item.Names tables ∧ Within limit (s.records.length + item.recordCount) →
        Of (items ++ [item]) s' ∧ s'.records.length = s.records.length + item.recordCount →
        Checked.Decides ((∀ item ∈ more, item.Names tables) ∧
            Within limit (s.records.length + item.recordCount + (more.map StreamItem.recordCount).sum))
          (fun s' => Of (items ++ [item] ++ more) s') (s'.ofStream limit tables more) := by
      rintro s' ⟨-, hwithin⟩ ⟨hs', hlength⟩
      rw [← hlength] at hwithin ⊢
      exact ih hs' hlt hwithin
    rw [ofStream, List.foldlM_cons]
    refine ((enter_decides h hone hw).bind hrest).congr ?_ fun _ _ hs' => hs'
    simp only [List.forall_mem_cons, List.map_cons, List.sum_cons, ← Nat.add_assoc]
    constructor
    · rintro ⟨⟨hnames, -⟩, hmore, hwithin⟩
      exact ⟨⟨hnames, hmore⟩, hwithin⟩
    · -- Where the whole stream fits the limit, its beginning does.
      rintro ⟨⟨hnames, hmore⟩, hwithin⟩
      exact ⟨⟨hnames, hwithin.mono (Nat.le_add_right _ _)⟩, hmore, hwithin⟩

end Draft

/-! ### Fill-arrays and frames -/

/-- The size of fill-array data with their header; an incomplete last element does not count. -/
def FillDescription.size (f : FillDescription) : Nat :=
  8 + f.elementWidth.toNat * (f.data.length / max f.elementWidth.toNat 1)

namespace FillArray

theorem length_packBytes (data : List UInt8) : (packBytes data).length = (data.length + 1) / 2 := by
  fun_induction packBytes data with
  | case1 => rfl
  | case2 low => simp
  | case3 low high rest ih =>
    simp only [List.length_cons, ih]
    omega

theorem mul_div_max_le (width length : Nat) : width * (length / max width 1) ≤ length := by
  cases width with
  | zero => simp
  | succ width => simpa using Nat.mul_div_le length (width + 1)

theorem ofElements_of_lt (f : FillDescription) (h : f.size < 2 ^ 32) :
    ∃ a, ofElements f.elementWidth f.data f.dexPc = .ok a ∧ a.size.toNat = f.size := by
  rw [FillDescription.size] at h
  have hle := mul_div_max_le f.elementWidth.toNat f.data.length
  have hunits := length_packBytes f.data
  simp only [ofElements, FillDescription.size]
  generalize f.data.length / max f.elementWidth.toNat 1 = count at h hle
  have hlow : (UInt16.ofNat (count % 65536)).toNat = count % 65536 :=
    UInt16.toNat_ofNat_of_lt' (Nat.mod_lt _ (by decide))
  have hhigh : (UInt16.ofNat (count / 65536 % 65536)).toNat = count / 65536 % 65536 :=
    UInt16.toNat_ofNat_of_lt' (Nat.mod_lt _ (by decide))
  -- elements of width zero may be too many to count, but then they take no space
  have hcount : f.elementWidth.toNat * (count % 65536 + 65536 * (count / 65536 % 65536)) =
      f.elementWidth.toNat * count := by
    rcases Nat.eq_zero_or_pos f.elementWidth.toNat with hzero | hpos
    · rw [hzero, Nat.zero_mul, Nat.zero_mul]
    · have hbound : count ≤ f.elementWidth.toNat * count := Nat.le_mul_of_pos_left count hpos
      congr 1
      omega
  have hheader : 4 ≤ (ident :: f.elementWidth :: UInt16.ofNat (count % 65536) :: UInt16.ofNat (count / 65536 % 65536) ::
      packBytes f.data).toArray.size := by simp
  have henough : unitsFor (f.elementWidth.toNat * count + 8) ≤ (ident :: f.elementWidth ::
      UInt16.ofNat (count % 65536) :: UInt16.ofNat (count / 65536 % 65536) :: packBytes f.data).toArray.size := by
    simp only [List.size_toArray, List.length_cons, hunits, unitsFor]
    omega
  have hfits : ¬UInt32.size ≤ f.elementWidth.toNat * count + 8 := by
    rw [Nat.not_le, Nat.add_comm]
    exact h
  simp only [parse, requireUnits_eq_ok.mpr hheader, Checked.ok_bind, List.getElem?_toArray, List.getElem?_cons_zero,
    List.getElem?_cons_succ, present_some, ne_eq, not_true_eq_false, if_false, hlow, hhigh, hcount, hfits,
    requireUnits_eq_ok.mpr henough]
  refine ⟨_, rfl, ?_⟩
  rw [UInt32.toNat_ofNat_of_lt' (Nat.not_le.mp hfits), Nat.add_comm]

end FillArray

theorem Description.fillArrays_of_lt {fills : List FillDescription} (h : ∀ f ∈ fills, f.size < 2 ^ 32) :
    ∃ fillArrays, fills.mapM (fun f => FillArray.ofElements f.elementWidth f.data f.dexPc) = .ok fillArrays ∧
      fillArrays.map (·.size.toNat) = fills.map FillDescription.size := by
  induction fills with
  | nil => exact ⟨[], rfl, rfl⟩
  | cons f fills ih =>
    obtain ⟨a, ha, hsize⟩ := FillArray.ofElements_of_lt f (h f List.mem_cons_self)
    obtain ⟨rest, hrest, hsizes⟩ := ih fun f hf => h f (List.mem_cons_of_mem _ hf)
    refine ⟨a :: rest, ?_, ?_⟩
    · rw [List.mapM_cons, ha, Checked.ok_bind, hrest]
      rfl
    · rw [List.map_cons, List.map_cons, hsize, hsizes]

/-- A frame is refused if its words are too many, and is never empty. -/
theorem Frame.size_decides (f : Frame) : Checked.Decides (f.words * 4 ≤ Frame.maxBytes) (fun size => 0 < size) f.size := by
  by_cases hle : f.words * 4 ≤ maxBytes
  · obtain ⟨size, hsize, hrounded⟩ := size_of_le hle
    have hwords : 2 ≤ f.words := Nat.le_add_left 2 _
    have hround : f.words * 4 ≤ size.toNat := hrounded ▸ le_roundUp (by decide)
    rw [hsize]
    refine ⟨hle, UInt32.lt_iff_toNat_lt.mpr ?_⟩
    show 0 < size.toNat
    omega
  · rw [size_of_lt (Nat.not_le.mp hle)]
    exact hle

namespace Description
variable {limit : Option Nat} {d : Description}

/-- What is known of a filling. -/
structure Fills (d : Description) (f : Filling) : Prop where
  draft : f.draft.Of d.instructions
  fillArrays : f.fillArrays.map (·.size.toNat) = d.fillArrays.map FillDescription.size
  frameSize : 0 < f.frameSize

theorem filling_decides (hliterals : literalBytes d.instructions < 2 ^ 32)
    (hfills : ∀ f ∈ d.fillArrays, f.size < 2 ^ 32) :
    Checked.Decides ((∀ item ∈ d.instructions, item.Names d.switches.length) ∧
        Within limit (d.instructions.map StreamItem.recordCount).sum ∧ d.frame.words * 4 ≤ Frame.maxBytes)
      d.Fills (d.filling limit) := by
  have hdraft := @Draft.ofStream_decides limit d.switches.length _ _ d.instructions Draft.of_nil hliterals
    fun _ _ => Nat.zero_le _
  obtain ⟨fillArrays, hfillArrays, hsizes⟩ := fillArrays_of_lt hfills
  rw [← and_assoc, filling, hfillArrays]
  refine (hdraft.congr ?_ fun _ _ h => h).bind fun draft _ hof => ?_
  · simp
  · exact d.frame.size_decides.bind_ok fun frameSize _ hpos => ⟨hof, hsizes, hpos⟩

end Description

end MethodAssembler
