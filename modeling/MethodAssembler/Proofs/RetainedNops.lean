import MethodAssembler.Proofs.InstructionRanges

/-! # Retained nops

A nop that stays in its list takes no code, but stamping does not quite pass over it: an alignment aligns also as a nop.
So a list gets the offsets that it would get without its nops exactly if no such alignment moves what follows it. It
moves nothing where the code is aligned anyway, or where the next instruction that is no nop is an alignment too. -/

namespace MethodAssembler

/-! ### Lists without nops -/

namespace InstrList
variable {l : InstrList} {ids : List InstrId}

/-- The nops that a list links. -/
def nops (l : InstrList) : List InstrId := (l.entries.filter (·.2.isNop)).map (·.1)

/-- Takes the nops out of a list. -/
def unlinkNops : ListM Unit := do (← MonadState.get).nops.forM unlink

theorem forM_unlink_run {gone : List InstrId} (h : l.Links ids) (hgone : ∀ x ∈ gone, x < l.arena.size) :
    ∃ l', gone.forM unlink l = .ok ⟨⟩ l' ∧ l'.Links (ids.filter (· ∉ gone)) ∧ l'.contents = l.contents := by
  induction gone generalizing l ids with
  | nil => exact ⟨l, rfl, by simpa using h, rfl⟩
  | cons x gone ih =>
    have hx : x < l.contents.length := l.contents_length ▸ hgone x List.mem_cons_self
    obtain ⟨l₁, hrun, href⟩ := h.refines.unlink_run hx
    have hcontents : l₁.contents = l.contents := href.records
    have hsize : l₁.arena.size = l.arena.size := by rw [← contents_length, ← contents_length, hcontents]
    obtain ⟨l', hrest, hlinks, hkept⟩ := ih href.links fun y hy => hsize ▸ hgone y (List.mem_cons_of_mem _ hy)
    refine ⟨l', ?_, ?_, hkept.trans hcontents⟩
    · show (unlink x >>= fun _ => gone.forM unlink) l = _
      rw [Stateful.bind_of_ok hrun, hrest]
    · have hfilter : (ids.erase x).filter (· ∉ gone) = ids.filter (· ∉ x :: gone) := by
        rw [h.nodup.erase_eq_filter, List.filter_filter]
        refine List.filter_congr fun y _ => ?_
        by_cases hyx : y = x <;> simp [hyx]
      exact hfilter ▸ hlinks

theorem filter_named {p : InstrId → Bool} {q : InstrId × Instruction → Bool}
    (h : ∀ id ∈ ids, ∀ i, l.contents[id]? = some i → p id = q (id, i)) :
    FixedWidth.named l (ids.filter p) = (FixedWidth.named l ids).filter q := by
  rw [FixedWidth.named, FixedWidth.named, List.filter_filterMap, List.filterMap_filter]
  refine List.filterMap_congr fun id hid => ?_
  cases hi : l.contents[id]? with
  | none => simp
  | some i => simp [h id hid i hi, Option.filter]

theorem Links.mem_nops (h : l.Links ids) {id : InstrId} {i : Instruction} (hid : id ∈ ids) (hi : l.contents[id]? = some i) :
    id ∈ l.nops ↔ i.isNop = true := by
  have hentries : l.entries = FixedWidth.named l ids := h.entries_eq
  simp only [nops, hentries, List.mem_map, List.mem_filter, Prod.exists, exists_and_right, exists_eq_right]
  constructor
  · rintro ⟨j, hj, hnop⟩
    cases hi.symm.trans (FixedWidth.mem_named.mp hj).2
    exact hnop
  · exact fun hnop => ⟨i, FixedWidth.mem_named.mpr ⟨hid, hi⟩, hnop⟩

theorem unlinkNops_run (h : l.Links ids) : ∃ l₀ ids₀, unlinkNops l = .ok () l₀ ∧ l₀.Links ids₀ ∧ l₀.entries = l.live := by
  have hentries : l.entries = FixedWidth.named l ids := h.entries_eq
  have hgone : ∀ x ∈ l.nops, x < l.arena.size := by
    intro x hx
    obtain ⟨⟨id, i⟩, he, rfl⟩ := List.mem_map.mp hx
    rw [hentries] at he
    exact h.lt_size (FixedWidth.mem_named.mp (List.mem_of_mem_filter he)).1
  obtain ⟨l₀, hrun, hlinks, hcontents⟩ := forM_unlink_run h hgone
  refine ⟨l₀, _, hrun, hlinks, ?_⟩
  have hsame : ∀ ids, FixedWidth.named l₀ ids = FixedWidth.named l ids := fun _ =>
    FixedWidth.named_congr fun _ _ => by rw [hcontents]
  rw [show l₀.entries = FixedWidth.named l₀ _ from hlinks.entries_eq, hsame, live, hentries]
  refine filter_named fun id hid i hi => ?_
  have hnop := h.mem_nops hid hi
  cases hi' : i.isNop <;> simp [hnop, hi']

end InstrList

/-! ### What a nop can move -/

namespace FixedWidth
variable {width reached reached₀ stop stop₀ : UInt32} {entries stamped stamped₀ : List (InstrId × Instruction)}

/-- The first entry that is no nop is an alignment. -/
def AlignsNext (entries : List (InstrId × Instruction)) : Prop :=
  ∃ e, entries.find? (!·.2.isNop) = some e ∧ e.2.opcode = .pseudo .align4

/-- An alignment that is a nop stands where the code is aligned anyway, or where the next entry that is no nop aligns it. -/
def NopsIdle (width : UInt32) (entries : List (InstrId × Instruction)) (n : Nat) : Prop :=
  ∀ before id i after, entries = before ++ (id, i) :: after → i.isNop = true → i.opcode = .pseudo .align4 →
    4 ∣ codeEnd width before n ∨ AlignsNext after

theorem alignsNext_cons {id : InstrId} {i : Instruction} : AlignsNext ((id, i) :: entries) ↔
    if i.isNop then AlignsNext entries else i.opcode = .pseudo .align4 := by
  unfold AlignsNext
  cases hnop : i.isNop <;> simp [hnop]

theorem nopsIdle_nil (width : UInt32) (n : Nat) : NopsIdle width [] n := by
  intro before id i after h
  simp at h

theorem nopsIdle_cons {id : InstrId} {i : Instruction} {n : Nat} : NopsIdle width ((id, i) :: entries) n ↔
    (i.isNop = true → i.opcode = .pseudo .align4 → 4 ∣ n ∨ AlignsNext entries) ∧
      NopsIdle width entries (startAt i n + extent width i) := by
  constructor
  · intro h
    refine ⟨h [] id i entries rfl, ?_⟩
    rintro before id' j after rfl
    exact h ((id, i) :: before) id' j after rfl
  · rintro ⟨hhead, htail⟩ before id' j after h
    cases before with
    | nil =>
      obtain ⟨⟨⟩, rfl⟩ := List.cons.inj h
      exact hhead
    | cons e before =>
      obtain ⟨rfl, hrest⟩ := List.cons.inj h
      exact htail before id' j after hrest

theorem nopsIdle_of_forall (h : ∀ e ∈ entries, e.2.isNop = true → e.2.opcode ≠ .pseudo .align4) (n : Nat) :
    NopsIdle width entries n := by
  rintro before id i after rfl hnop hop
  exact absurd hop (h (id, i) (by simp) hnop)

/-! ### Counting with nops and without -/

theorem extent_of_nop {i : Instruction} (h : i.isNop = true) : extent width i = 0 := by
  simp [extent, Instruction.isLiveTarget, h]

/-- Of two counts the second passes over the nops, and the first is as far or has aligned since. -/
def Tracks (n n₀ : Nat) : Prop := n = n₀ ∨ n = roundUp n₀ 4

namespace Tracks
variable {n n₀ : Nat} {i : Instruction}

theorem roundUp_eq (h : Tracks n n₀) : roundUp n 4 = roundUp n₀ 4 := by
  rcases h with rfl | rfl
  · rfl
  · exact roundUp_of_dvd (by decide) (dvd_roundUp _ _)

theorem le (h : Tracks n n₀) : n₀ ≤ n := by
  rcases h with rfl | rfl
  · exact Nat.le_refl n
  · exact le_roundUp (by decide)

theorem startAt_nop (h : Tracks n n₀) (i : Instruction) : Tracks (startAt i n) n₀ := by
  unfold startAt
  split
  · exact .inr h.roundUp_eq
  · exact h

/-- A nop keeps the counts together, or apart with an alignment ahead, unless it aligns one of them alone. -/
theorem startAt_nop_iff (h : Tracks n n₀) (i : Instruction) (ahead : Prop) :
    (startAt i n = n₀ ∨ ahead) ↔ (n = n₀ ∨ ahead) ∧ (i.opcode = .pseudo .align4 → 4 ∣ n ∨ ahead) := by
  by_cases hahead : ahead
  · simp [hahead]
  by_cases hop : i.opcode = .pseudo .align4
  · simp only [startAt, hahead, or_false, hop, forall_const]
    constructor
    · intro hn₀
      have hn : n = n₀ := Nat.le_antisymm (hn₀ ▸ le_roundUp (by decide)) h.le
      refine ⟨hn, ?_⟩
      rw [hn, ← hn₀]
      exact dvd_roundUp _ _
    · rintro ⟨rfl, hd⟩
      exact roundUp_of_dvd (by decide) hd
  · simp [startAt, hop, hahead]

/-- Where both counts take an entry they meet if it is an alignment. -/
theorem startAt_eq_iff (h : Tracks n n₀) (i : Instruction) :
    startAt i n = startAt i n₀ ↔ n = n₀ ∨ i.opcode = .pseudo .align4 := by
  by_cases hop : i.opcode = .pseudo .align4
  · simp [startAt, hop, h.roundUp_eq]
  · simp [startAt, hop]

end Tracks

theorem startAt_mono (i : Instruction) {n₀ n : Nat} (h : n₀ ≤ n) : startAt i n₀ ≤ startAt i n := by
  unfold startAt
  split
  · exact roundUp_le (by decide) (Nat.le_trans h (le_roundUp (by decide))) (dvd_roundUp _ _)
  · exact h

theorem codeEnd_filter_le {n₀ n : Nat} (h : n₀ ≤ n) :
    codeEnd width (entries.filter (!·.2.isNop)) n₀ ≤ codeEnd width entries n := by
  induction entries generalizing n₀ n with
  | nil => exact h
  | cons e entries ih =>
    obtain ⟨id, i⟩ := e
    cases hnop : i.isNop with
    | true =>
      rw [List.filter_cons_of_neg (by simp [hnop])]
      have hle := le_startAt i n
      exact ih (by omega)
    | false =>
      rw [List.filter_cons_of_pos (by simp [hnop])]
      exact ih (Nat.add_le_add_right (startAt_mono i h) _)

/-- The two counts agree to the end exactly if they agree now, or meet at the next alignment, and no nop divides them. -/
theorem layOut_filter_iff (ht : Tracks reached.toNat reached₀.toNat)
    (h : layOut width entries reached = .ok (stamped, stop))
    (h₀ : layOut width (entries.filter (!·.2.isNop)) reached₀ = .ok (stamped₀, stop₀)) :
    (stop₀ = stop ∧ stamped₀ = stamped.filter (!·.2.isNop)) ↔
      (reached = reached₀ ∨ AlignsNext entries) ∧ NopsIdle width entries reached.toNat := by
  induction entries generalizing reached reached₀ stamped stamped₀ with
  | nil =>
    cases h
    cases h₀
    have hnext : ¬AlignsNext [] := by simp [AlignsNext]
    simp [hnext, nopsIdle_nil, eq_comm]
  | cons e entries ih =>
    obtain ⟨id, i⟩ := e
    obtain ⟨offset, next, tail, hp, hrest, rfl⟩ := layOut_cons.mp h
    obtain ⟨hoffset, hnext⟩ := place_eq_ok_iff.mp hp
    rw [nopsIdle_cons, alignsNext_cons, ← hoffset, ← hnext]
    cases hnop : i.isNop with
    | true =>
      -- only the first count takes the nop
      rw [List.filter_cons_of_neg (by simp [hnop])] at h₀
      rw [List.filter_cons_of_neg (by simp)]
      rw [extent_of_nop hnop, Nat.add_zero, hoffset] at hnext
      have hstep := ht.startAt_nop_iff i (AlignsNext entries)
      rw [← hnext, UInt32.toNat_inj, UInt32.toNat_inj] at hstep
      rw [ih (hnext ▸ ht.startAt_nop i) hrest h₀, hstep, and_assoc]
      simp
    | false =>
      rw [List.filter_cons_of_pos (by simp [hnop])] at h₀
      rw [List.filter_cons_of_pos (by simp)]
      obtain ⟨offset₀, next₀, tail₀, hp₀, hrest₀, rfl⟩ := layOut_cons.mp h₀
      obtain ⟨hoffset₀, hnext₀⟩ := place_eq_ok_iff.mp hp₀
      have hmeet := ht.startAt_eq_iff i
      rw [← hoffset, ← hoffset₀, UInt32.toNat_inj, UInt32.toNat_inj] at hmeet
      by_cases hsame : offset = offset₀
      · have hnexts : next = next₀ := UInt32.toNat_inj.mp (by rw [hnext, hnext₀, hsame])
        have hiff := ih (.inl (congrArg _ hnexts)) hrest hrest₀
        simpa [hsame, hnexts, hmeet.mp hsame, hnop] using hiff
      · have hapart := mt hmeet.mpr hsame
        simp [hapart, Ne.symm hsame]

/-! ### Stamping with nops and without -/

/-- The code of a list without its nops always fits if that of the list does. Its instructions then have the offsets
    that they have among the nops, and the code ends where it ends with them, exactly if no nop aligns what follows it
    alone. -/
theorem assignOffsets_without_nops {l l' : InstrList} {width size : UInt32} (hl : l.Reachable)
    (h : (Encoder.fixedWidth width).assignOffsets l = .ok size l') :
    ∃ l₀ size₀ l₀', InstrList.unlinkNops l = .ok () l₀ ∧ l₀.entries = l.live ∧
      (Encoder.fixedWidth width).assignOffsets l₀ = .ok size₀ l₀' ∧
      ((size₀ = size ∧ l₀'.entries = l'.live) ↔ NopsIdle width l.entries 0) ∧
      ((∀ e ∈ l.entries, e.2.isNop = true → e.2.opcode ≠ .pseudo .align4) → NopsIdle width l.entries 0) := by
  obtain ⟨ids, hids⟩ := hl.links
  obtain ⟨l₀, ids₀, hunlink, hids₀, hentries⟩ := InstrList.unlinkNops_run hids
  have hlayout := layOut_of_assignOffsets hids h
  have hlt : codeEnd width l₀.entries 0 < 2 ^ 32 := by
    have hle : codeEnd width l₀.entries 0 ≤ codeEnd width l.entries 0 := by
      rw [hentries]
      exact codeEnd_filter_le (Nat.le_refl 0)
    have hsize : size.toNat = codeEnd width l.entries 0 := layOut_stop hlayout
    have hfits := size.toNat_lt
    omega
  obtain ⟨size₀, l₀', hrun₀⟩ := assignOffsets_of_lt hids₀ hlt
  have hlayout₀ := layOut_of_assignOffsets hids₀ hrun₀
  rw [hentries] at hlayout₀
  have hiff := layOut_filter_iff (.inl rfl) hlayout hlayout₀
  simp only [true_or, true_and] at hiff
  exact ⟨l₀, size₀, l₀', hunlink, hentries, hrun₀, hiff, fun hnone => nopsIdle_of_forall hnone 0⟩

/-- Two instructions with a retained alignment between them, a nop. -/
def retainedAlignment : InstrList where
  arena := #[
    { instr := .target 1 0 [], next := some 1, linked := true },
    { instr := { Instruction.pseudo .align4 0 with isNop := true }, prev := some 0, next := some 2, linked := true },
    { instr := .target 2 0 [], prev := some 1, linked := true }]
  first := some 0
  last := some 2
  length := 3
  retainNops := true

theorem retainedAlignment_reachable : retainedAlignment.Reachable := by
  have h₁ : InstrList.Edits (.empty true none) _ := .step .refl ⟨.push (.target 1 0 []), .inl ⟨_, rfl⟩⟩
  have h₂ := h₁.step ⟨.push (.pseudo .align4 0), .inl ⟨_, rfl⟩⟩
  have h₃ := h₂.step ⟨.convertToNop 1, .inl ⟨_, rfl⟩⟩
  exact ⟨true, none, h₃.step ⟨.push (.target 2 0 []), .inl ⟨_, rfl⟩⟩⟩

/-- With four bytes to an instruction the nop stands at an aligned offset and moves nothing. -/
theorem assignOffsets_without_nops_aligned : retainedAlignment.Reachable ∧
    ∃ l' l₀ l₀', (Encoder.fixedWidth 4).assignOffsets retainedAlignment = .ok 8 l' ∧
      InstrList.unlinkNops retainedAlignment = .ok () l₀ ∧ (Encoder.fixedWidth 4).assignOffsets l₀ = .ok 8 l₀' ∧
      l₀'.entries = l'.live := by
  have hrun : (Encoder.fixedWidth 4).assignOffsets retainedAlignment =
    .ok 8 (Stateful.reached ((Encoder.fixedWidth 4).assignOffsets retainedAlignment)) := rfl
  have hidle : NopsIdle 4 retainedAlignment.entries 0 := by
    refine nopsIdle_cons.mpr ⟨fun h => absurd h Bool.false_ne_true, nopsIdle_cons.mpr ⟨fun _ _ => .inl ⟨1, rfl⟩, ?_⟩⟩
    exact nopsIdle_cons.mpr ⟨fun h => absurd h Bool.false_ne_true, nopsIdle_nil _ _⟩
  obtain ⟨l₀, size₀, l₀', hunlink, -, hrun₀, hiff, -⟩ := assignOffsets_without_nops retainedAlignment_reachable hrun
  obtain ⟨rfl, hentries⟩ := hiff.mpr hidle
  exact ⟨retainedAlignment_reachable, _, l₀, l₀', hrun, hunlink, hrun₀, hentries⟩

/-- With two bytes to an instruction the nop moves the second one, and the end of the code, by two. -/
theorem retained_alignment_moves_code : retainedAlignment.Reachable ∧
    ∃ l' l₀ l₀', (Encoder.fixedWidth 2).assignOffsets retainedAlignment = .ok 6 l' ∧
      l'.live.map (fun e => (e.1, e.2.offset)) = [(0, 0), (2, 4)] ∧
      InstrList.unlinkNops retainedAlignment = .ok () l₀ ∧ (Encoder.fixedWidth 2).assignOffsets l₀ = .ok 4 l₀' ∧
      l₀'.entries.map (fun e => (e.1, e.2.offset)) = [(0, 0), (2, 2)] :=
  ⟨retainedAlignment_reachable, _, _, _, rfl, rfl, rfl, rfl, rfl⟩

end FixedWidth

end MethodAssembler
