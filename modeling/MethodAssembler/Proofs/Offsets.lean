import MethodAssembler.Encoder
import MethodAssembler.Proofs.InstrList.Operations
import MethodAssembler.Proofs.Placement

/-! # Offsets of instructions

Stamping a list is laying out its entries one behind the other (`layOut`). A layout ends where its bytes add up to
(`codeEnd`), and it exists when that is a 32-bit offset. Entries that take no space and do not align may be left out of
a layout or put into it without moving the others, and the bytes of the instructions in a layout ascend up to where it
ends. -/

namespace MethodAssembler

/-- The list without the offsets of its instructions, linked or not. -/
def InstrList.withoutOffsets (l : InstrList) : InstrList :=
  { l with arena := l.arena.map fun n => { n with instr := { n.instr with offset := 0 } } }

/-- An offset is all that stamping an instruction changes in its list. -/
theorem InstrList.withoutOffsets_changed (l : InstrList) (id : InstrId) (offset : UInt32) :
    (l.changed id ({ · with offset })).withoutOffsets = l.withoutOffsets := by
  have harena : (l.changed id ({ · with offset })).withoutOffsets.arena = l.withoutOffsets.arena := by
    refine Array.ext_getElem? fun k => ?_
    simp only [withoutOffsets, changed, Array.getElem?_map, Array.getElem?_modify]
    split
    · rw [Option.map_map]
      rfl
    · rfl
  exact congrArg (fun arena => { l with arena }) harena

namespace FixedWidth

/-! ### Layouts -/

/-- The entries with their offsets, laid out from `reached` on, and where they end. -/
def layOut (width : UInt32) : List (InstrId × Instruction) → (reached : UInt32) →
    Checked (List (InstrId × Instruction) × UInt32)
  | [], reached => .ok ([], reached)
  | (id, i) :: rest, reached => do
    let (offset, reached) ← place width reached i
    let (rest, stop) ← layOut width rest reached
    return ((id, { i with offset }) :: rest, stop)

/-- Whether an instruction leaves what follows it where it is: it takes no space and does not align. -/
def isIdle (i : Instruction) : Bool := !i.isLiveTarget && i.opcode ≠ .pseudo .align4

variable {width reached stop : UInt32} {i : Instruction} {entries stamped : List (InstrId × Instruction)}

theorem place_idle (h : isIdle i = true) : place width reached i = .ok (reached, reached) := by
  simp only [isIdle, Bool.and_eq_true, Bool.not_eq_true', decide_eq_true_eq] at h
  simp [place, h.1, h.2]

theorem layOut_cons {id : InstrId} {rest : List (InstrId × Instruction)} :
    layOut width ((id, i) :: rest) reached = .ok (stamped, stop) ↔
      ∃ offset next tail, place width reached i = .ok (offset, next) ∧ layOut width rest next = .ok (tail, stop) ∧
        stamped = (id, { i with offset }) :: tail := by
  simp only [layOut, Checked.bind_eq_ok, Checked.pure_eq, Except.ok.injEq, Prod.mk.injEq, Prod.exists]
  constructor
  · rintro ⟨offset, next, hp, tail, stop', ht, rfl, rfl⟩
    exact ⟨offset, next, tail, hp, ht, rfl⟩
  · rintro ⟨offset, next, tail, hp, ht, rfl⟩
    exact ⟨offset, next, hp, tail, stop, ht, rfl, rfl⟩

theorem layOut_append {xs ys : List (InstrId × Instruction)} :
    layOut width (xs ++ ys) reached = .ok (stamped, stop) ↔
      ∃ front middle back, layOut width xs reached = .ok (front, middle) ∧ layOut width ys middle = .ok (back, stop) ∧
        stamped = front ++ back := by
  induction xs generalizing reached stamped with
  | nil =>
    constructor
    · intro h
      exact ⟨[], reached, stamped, rfl, h, rfl⟩
    · rintro ⟨front, middle, back, hx, hy, rfl⟩
      cases hx
      exact hy
  | cons x xs ih =>
    obtain ⟨id, i⟩ := x
    simp only [List.cons_append, layOut_cons, ih]
    constructor
    · rintro ⟨offset, next, tail, hp, ⟨front, middle, back, hx, hy, rfl⟩, rfl⟩
      exact ⟨_, middle, back, ⟨offset, next, front, hp, hx, rfl⟩, hy, rfl⟩
    · rintro ⟨front, middle, back, ⟨offset, next, front', hp, hx, rfl⟩, hy, rfl⟩
      exact ⟨offset, next, _, hp, ⟨front', middle, back, hx, hy, rfl⟩, rfl⟩

/-- A layout changes offsets only. -/
theorem layOut_map {β : Type} {g : InstrId × Instruction → β} (hg : ∀ id i offset, g (id, { i with offset }) = g (id, i))
    (h : layOut width entries reached = .ok (stamped, stop)) : stamped.map g = entries.map g := by
  induction entries generalizing reached stamped with
  | nil =>
    cases h
    rfl
  | cons e entries ih =>
    obtain ⟨offset, next, tail, -, ht, rfl⟩ := layOut_cons.mp h
    rw [List.map_cons, List.map_cons, hg, ih ht]

theorem layOut_ids (h : layOut width entries reached = .ok (stamped, stop)) :
    stamped.map (·.1) = entries.map (·.1) := layOut_map (fun _ _ _ => rfl) h

theorem layOut_getElem? {id : InstrId} {k : Nat} (h : layOut width entries reached = .ok (stamped, stop))
    (hk : entries[k]? = some (id, i)) : ∃ offset, stamped[k]? = some (id, { i with offset }) := by
  induction entries generalizing reached stamped k with
  | nil => cases hk
  | cons e entries ih =>
    obtain ⟨offset, next, tail, -, ht, rfl⟩ := layOut_cons.mp h
    cases k with
    | zero =>
      cases hk
      exact ⟨offset, rfl⟩
    | succ k =>
      rw [List.getElem?_cons_succ] at hk ⊢
      exact ih ht hk

/-- Entries that stay idle may be left out of a layout. -/
theorem layOut_filter (keep : InstrId × Instruction → Bool)
    (hkeep : ∀ e ∈ entries, keep e = false → isIdle e.2 = true)
    (hoffset : ∀ id i offset, keep (id, { i with offset }) = keep (id, i)) :
    layOut width (entries.filter keep) reached =
      (layOut width entries reached).map fun (stamped, stop) => (stamped.filter keep, stop) := by
  induction entries generalizing reached with
  | nil => rfl
  | cons e entries ih =>
    obtain ⟨id, i⟩ := e
    have ih := fun reached => @ih reached fun e he => hkeep e (List.mem_cons_of_mem _ he)
    cases hk : keep (id, i) with
    | true =>
      rw [List.filter_cons_of_pos hk]
      simp only [layOut, ih]
      cases place width reached i with
      | error f => rfl
      | ok p =>
        obtain ⟨offset, next⟩ := p
        simp only [Checked.ok_bind]
        cases layOut width entries next with
        | error f => rfl
        | ok q =>
          have hk' : keep (id, { i with offset }) = true := (hoffset id i offset).trans hk
          simp [Except.map, List.filter_cons_of_pos hk']
    -- An entry that is left out is idle and moves nothing.
    | false =>
      rw [List.filter_cons_of_neg (by simp [hk]), ih]
      simp only [layOut, place_idle (hkeep (id, i) List.mem_cons_self hk), Checked.ok_bind]
      cases layOut width entries reached with
      | error f => rfl
      | ok q =>
        have hk' : keep (id, { i with offset := reached }) ≠ true := by simp [hoffset, hk]
        simp [Except.map, List.filter_cons_of_neg hk']

/-- Idle entries all get the offset that was reached before them. -/
theorem layOut_idle (h : ∀ e ∈ entries, isIdle e.2 = true) :
    layOut width entries reached = .ok (entries.map fun (id, i) => (id, { i with offset := reached }), reached) := by
  induction entries with
  | nil => rfl
  | cons e entries ih =>
    obtain ⟨id, i⟩ := e
    have htail := ih fun e he => h e (List.mem_cons_of_mem _ he)
    exact layOut_cons.mpr ⟨reached, reached, _, place_idle (h (id, i) List.mem_cons_self), htail, rfl⟩

/-! ### Offsets as numbers -/

/-- Where an instruction stands that `n` bytes of code come before. -/
def startAt (i : Instruction) (n : Nat) : Nat := if i.opcode = .pseudo .align4 then roundUp n 4 else n

/-- The bytes of code that an instruction takes. -/
def extent (width : UInt32) (i : Instruction) : Nat := if i.isLiveTarget then width.toNat else 0

/-- An instruction can be placed exactly if its offset and its end can be counted. -/
theorem place_eq_ok_iff {offset next : UInt32} : place width reached i = .ok (offset, next) ↔
    offset.toNat = startAt i reached.toNat ∧ next.toNat = offset.toNat + extent width i := by
  have hstart : ∀ o, (if i.opcode = .pseudo .align4 then alignUp reached 4 else pure reached) = .ok o ↔
      o.toNat = startAt i reached.toNat := by
    intro o
    unfold startAt
    split
    · exact alignUp_eq_ok_iff (by decide)
    · rw [Checked.pure_eq, Except.ok.injEq, UInt32.toNat_inj, eq_comm]
  have hstop : ∀ o n, (if i.isLiveTarget then addWords o width else pure o) = .ok n ↔
      n.toNat = o.toNat + extent width i := by
    intro o n
    unfold extent
    split
    · exact addWords_eq_ok
    · rw [Checked.pure_eq, Except.ok.injEq, Nat.add_zero, UInt32.toNat_inj, eq_comm]
  -- Placing is aligning and then adding, each of which may do nothing.
  have hplace : place width reached i =
      ((if i.opcode = .pseudo .align4 then alignUp reached 4 else pure reached) >>= fun o =>
        (if i.isLiveTarget then addWords o width else pure o) >>= fun n => .ok (o, n)) := by
    unfold place
    split <;> split <;> rfl
  simp only [hplace, Checked.bind_eq_ok, hstart, hstop, Except.ok.injEq, Prod.mk.injEq]
  constructor
  · rintro ⟨o, ho, n, hn, rfl, rfl⟩
    exact ⟨ho, hn⟩
  · rintro ⟨ho, hn⟩
    exact ⟨offset, ho, next, hn, rfl, rfl⟩

theorem le_startAt (i : Instruction) (n : Nat) : n ≤ startAt i n := by
  unfold startAt
  split
  · exact le_roundUp (by decide)
  · exact Nat.le_refl n

theorem startAt_of_dvd (i : Instruction) {n : Nat} (h : 4 ∣ n) : startAt i n = n := by
  unfold startAt
  split
  · exact roundUp_of_dvd (by decide) h
  · rfl

theorem extent_of_pseudo {op : Pseudo} (h : i.opcode = .pseudo op) : extent width i = 0 := by
  simp [extent, Instruction.isLiveTarget, h, Opcode.isPseudo]

theorem extent_of_live {i : Instruction} (h : i.isLiveTarget = true) : extent width i = width.toNat := if_pos h

theorem place_eq_ok {offset next : UInt32} (h : place width reached i = .ok (offset, next)) :
    reached.toNat ≤ offset.toNat ∧ next.toNat = offset.toNat + extent width i := by
  obtain ⟨hoffset, hnext⟩ := place_eq_ok_iff.mp h
  exact ⟨hoffset ▸ le_startAt i reached.toNat, hnext⟩

/-- Where the code of some entries ends if `n` bytes come before them. -/
def codeEnd (width : UInt32) : List (InstrId × Instruction) → (n : Nat) → Nat
  | [], n => n
  | (_, i) :: rest, n => codeEnd width rest (startAt i n + extent width i)

theorem le_codeEnd (width : UInt32) (entries : List (InstrId × Instruction)) (n : Nat) : n ≤ codeEnd width entries n := by
  induction entries generalizing n with
  | nil => exact Nat.le_refl n
  | cons e entries ih =>
    have hstart := le_startAt e.2 n
    have hrest := ih (startAt e.2 n + extent width e.2)
    simp only [codeEnd]
    omega

theorem layOut_stop (h : layOut width entries reached = .ok (stamped, stop)) :
    stop.toNat = codeEnd width entries reached.toNat := by
  induction entries generalizing reached stamped with
  | nil =>
    cases h
    rfl
  | cons e entries ih =>
    obtain ⟨offset, next, tail, hp, ht, rfl⟩ := layOut_cons.mp h
    obtain ⟨hoffset, hnext⟩ := place_eq_ok_iff.mp hp
    rw [ih ht, hnext, hoffset]
    rfl

theorem layOut_of_lt (h : codeEnd width entries reached.toNat < 2 ^ 32) :
    ∃ stamped stop, layOut width entries reached = .ok (stamped, stop) := by
  induction entries generalizing reached with
  | nil => exact ⟨[], reached, rfl⟩
  | cons e entries ih =>
    obtain ⟨id, i⟩ := e
    simp only [codeEnd] at h
    have hle := le_codeEnd width entries (startAt i reached.toNat + extent width i)
    have hoffset : (UInt32.ofNat (startAt i reached.toNat)).toNat = startAt i reached.toNat :=
      UInt32.toNat_ofNat_of_lt' (show _ < 2 ^ 32 by omega)
    have hnext : (UInt32.ofNat (startAt i reached.toNat + extent width i)).toNat =
        startAt i reached.toNat + extent width i :=
      UInt32.toNat_ofNat_of_lt' (show _ < 2 ^ 32 by omega)
    obtain ⟨tail, stop, ht⟩ := @ih (.ofNat (startAt i reached.toNat + extent width i)) (by rwa [hnext])
    exact ⟨_, stop, layOut_cons.mpr ⟨_, _, tail, place_eq_ok_iff.mpr ⟨hoffset, by rw [hnext, hoffset]⟩, ht, rfl⟩⟩

/-- Instructions stand before the end of their layout. -/
theorem layOut_le_stop (h : layOut width entries reached = .ok (stamped, stop)) :
    reached.toNat ≤ stop.toNat ∧
      ∀ id i, (id, i) ∈ stamped → i.offset.toNat + extent width i ≤ stop.toNat := by
  induction entries generalizing reached stamped with
  | nil =>
    cases h
    exact ⟨Nat.le_refl _, fun _ _ hi => absurd hi List.not_mem_nil⟩
  | cons e entries ih =>
    obtain ⟨id, i⟩ := e
    obtain ⟨offset, next, tail, hp, ht, rfl⟩ := layOut_cons.mp h
    obtain ⟨hle, hnext⟩ := place_eq_ok hp
    obtain ⟨hstop, htail⟩ := ih ht
    refine ⟨by omega, fun id' i' hi' => ?_⟩
    rcases List.mem_cons.mp hi' with heq | hi'
    · cases heq
      exact Nat.le_trans (Nat.le_of_eq hnext.symm) hstop
    · exact htail id' i' hi'

/-! ### Stamping -/

/-- What is left of a list when only offsets of the listed instructions have changed. -/
structure Restamped (ids : List InstrId) (l l' : InstrList) : Prop where
  links : ∀ order, l.Links order → l'.Links order
  others : ∀ id, id ∉ ids → l'.contents[id]? = l.contents[id]?
  same : l'.withoutOffsets = l.withoutOffsets

theorem Restamped.size {ids : List InstrId} {l l' : InstrList} (h : Restamped ids l l') : l'.arena.size = l.arena.size := by
  have harena := congrArg (·.arena.size) h.same
  rwa [InstrList.withoutOffsets, InstrList.withoutOffsets, Array.size_map, Array.size_map] at harena

/-- The instructions that `ids` name, each with its name. -/
def named (l : InstrList) (ids : List InstrId) : List (InstrId × Instruction) :=
  ids.filterMap fun id => l.contents[id]?.map (id, ·)

theorem named_cons {l : InstrList} {id : InstrId} {ids : List InstrId} (h : l.contents[id]? = some i) :
    named l (id :: ids) = (id, i) :: named l ids := by
  simp [named, h]

theorem named_congr {l l' : InstrList} {ids : List InstrId}
    (h : ∀ id ∈ ids, l'.contents[id]? = l.contents[id]?) : named l' ids = named l ids := by
  induction ids with
  | nil => rfl
  | cons id ids ih =>
    have htail := ih fun x hx => h x (List.mem_cons_of_mem _ hx)
    simp only [named] at htail ⊢
    rw [List.filterMap_cons, List.filterMap_cons, h id List.mem_cons_self, htail]

theorem named_append {l : InstrList} (xs ys : List InstrId) : named l (xs ++ ys) = named l xs ++ named l ys :=
  List.filterMap_append

theorem mem_named {l : InstrList} {ids : List InstrId} {id : InstrId} :
    (id, i) ∈ named l ids ↔ id ∈ ids ∧ l.contents[id]? = some i := by
  simp only [named, List.mem_filterMap, Option.map_eq_some_iff, Prod.mk.injEq]
  constructor
  · rintro ⟨x, hx, y, hy, rfl, rfl⟩
    exact ⟨hx, hy⟩
  · rintro ⟨hid, hi⟩
    exact ⟨id, hid, i, hi, rfl, rfl⟩

/-- Stamping distinct allocated instructions is laying them out. -/
theorem stamp_follows {l : InstrList} {ids : List InstrId} (hd : ids.Nodup) (hlt : ∀ id ∈ ids, id < l.arena.size) :
    Stateful.Follows (layOut width (named l ids) reached)
      (fun layout stop l' => stop = layout.2 ∧ named l' ids = layout.1 ∧ Restamped ids l l')
      (InstrList.stamp (fun reached _ i => place width reached i) ids reached l) := by
  induction ids generalizing l reached with
  | nil => exact ⟨_, rfl, rfl, rfl, fun _ h => h, fun _ _ => rfl, rfl⟩
  | cons id ids ih =>
    have hid : id < l.arena.size := hlt id List.mem_cons_self
    obtain ⟨i, hi⟩ := InstrList.getElem?_contents_of_lt hid
    simp only [InstrList.stamp, Stateful.get_bind_run, InstrList.get_eq_ok.mpr hi,
      Stateful.lift_ok_bind_run, named_cons hi, layOut]
    cases place width reached i with
    | error f => rfl
    | ok p =>
      obtain ⟨offset, next⟩ := p
      obtain ⟨hnot, hd⟩ := List.nodup_cons.mp hd
      -- the other instructions stay as they are while this one is stamped, and this one while they are
      have hself : (l.changed id ({ · with offset })).contents[id]? = some { i with offset } := by
        rw [InstrList.getElem?_changed_self, hi]
        rfl
      have hnamed : named (l.changed id ({ · with offset })) ids = named l ids :=
        named_congr fun x hx => InstrList.getElem?_changed_of_ne fun h => hnot (h ▸ hx)
      simp only [Stateful.lift_ok_bind_run, Checked.ok_bind]
      rw [Stateful.bind_of_ok (InstrList.modifyInstr_run hid)]
      have hlt' : ∀ x ∈ ids, x < (l.changed id ({ · with offset })).arena.size := by
        rw [InstrList.size_changed]
        exact fun x hx => hlt x (List.mem_cons_of_mem _ hx)
      have hrest := @ih next _ hd hlt'
      rw [hnamed] at hrest
      cases hrun : InstrList.stamp (fun reached _ i => place width reached i) ids next
        (l.changed id ({ · with offset })) with
      | error f l' =>
        rw [hrun] at hrest
        rw [show layOut width (named l ids) next = .error f from hrest]
        rfl
      | ok stop l' =>
        rw [hrun] at hrest
        obtain ⟨⟨tail, stop'⟩, htail, rfl, rfl, hkept⟩ := hrest
        refine ⟨_, by rw [htail]; rfl, rfl, named_cons ((hkept.others id hnot).trans hself), ?_, ?_, ?_⟩
        · exact fun order ho => hkept.links order ho.changed
        · intro x hx
          obtain ⟨hxi, hxs⟩ := not_or.mp (mt List.mem_cons.mpr hx)
          rw [hkept.others x hxs, InstrList.getElem?_changed_of_ne hxi]
        · rw [hkept.same, l.withoutOffsets_changed]

/-- Assigning the offsets of a list is laying out its entries. -/
theorem assignOffsets_follows {l : InstrList} {ids : List InstrId} (h : l.Links ids) :
    Stateful.Follows (layOut width l.entries 0)
      (fun layout stop l' => stop = layout.2 ∧ l'.entries = layout.1 ∧ Restamped ids l l')
      (assignOffsets width l) := by
  rw [h.entries_eq, assignOffsets, Stateful.get_bind_run, h.order_eq]
  refine (stamp_follows h.nodup fun id hid => h.lt_size hid).mono ?_
  rintro layout stop l' ⟨hstop, hnamed, hkept⟩
  exact ⟨hstop, (hkept.links ids h).entries_eq.trans hnamed, hkept⟩

/-! ### Bytes -/

/-- The bytes of an instruction at its offset; nops and pseudo instructions have none. -/
def placement? (width : UInt32) (i : Instruction) : Option Placement :=
  match i.isNop, i.opcode with
  | false, .target code => some ⟨i.offset, instrBytes width code i⟩
  | _, _ => none

/-- The bytes of the instructions among some entries. -/
def placements (width : UInt32) (entries : List (InstrId × Instruction)) : List Placement :=
  entries.filterMap fun (_, i) => placement? width i

theorem instrBytes_length (width : UInt32) (code : UInt16) (i : Instruction) :
    (instrBytes width code i).length = width.toNat := by
  simp only [instrBytes, List.length_append, littleEndian_length, List.length_replicate]
  omega

theorem placement?_of_not_live (h : i.isLiveTarget = false) : placement? width i = none := by
  rw [Instruction.isLiveTarget] at h
  cases hn : i.isNop <;> cases ho : i.opcode <;> simp_all [placement?, Opcode.isPseudo]

theorem placement?_of_live (width : UInt32) (h : i.isLiveTarget = true) :
    ∃ bytes, placement? width i = some ⟨i.offset, bytes⟩ ∧ bytes.length = width.toNat := by
  rw [Instruction.isLiveTarget] at h
  cases hn : i.isNop <;> cases ho : i.opcode <;> simp_all [placement?, Opcode.isPseudo, instrBytes_length]

theorem placements_cons (width : UInt32) (id : InstrId) (i : Instruction) (entries : List (InstrId × Instruction)) :
    placements width ((id, i) :: entries) = (placement? width i).toList ++ placements width entries := by
  cases h : placement? width i <;> simp [placements, h]

theorem encodeInstr_eq_putAll {code : Bytes} (h : i.isNop = false) :
    encodeInstr width code i = code.putAll (placement? width i).toList := by
  cases ho : i.opcode <;> simp [encodeInstr, placement?, h, ho, Bytes.putAll, Bytes.put]

/-- Encoding a list is placing the bytes of its instructions. -/
theorem encode_eq_putAll (width : UInt32) (l : InstrList) :
    encode width l = Bytes.putAll #[] (placements width l.entries) := by
  have hfold : ∀ (entries : List (InstrId × Instruction)) (code : Bytes),
      (entries.filter fun (_, i) => !i.isNop).foldl (fun code (_, i) => encodeInstr width code i) code =
        code.putAll (placements width entries) := by
    intro entries
    induction entries with
    | nil => exact fun _ => rfl
    | cons e entries ih =>
      obtain ⟨id, i⟩ := e
      intro code
      rw [placements_cons, Bytes.putAll_append]
      cases hn : i.isNop with
      | true => rw [List.filter_cons_of_neg (by simp [hn]), ih, placement?, hn]; rfl
      | false => rw [List.filter_cons_of_pos (by simp [hn]), List.foldl_cons, ih, ← encodeInstr_eq_putAll hn]
  exact hfold l.entries #[]

/-- The bytes of laid-out instructions stand one behind the other. -/
theorem ascends_placements (h : layOut width entries reached = .ok (stamped, stop)) :
    Ascends reached.toNat (placements width stamped) stop.toNat := by
  induction entries generalizing reached stamped with
  | nil =>
    cases h
    exact Nat.le_refl _
  | cons e entries ih =>
    obtain ⟨id, i⟩ := e
    obtain ⟨offset, next, tail, hp, ht, rfl⟩ := layOut_cons.mp h
    obtain ⟨hle, hnext⟩ := place_eq_ok hp
    have htail := ih ht
    have hlive : Instruction.isLiveTarget { i with offset } = i.isLiveTarget := rfl
    cases hi : i.isLiveTarget with
    | false =>
      rw [placements_cons, placement?_of_not_live (hlive.trans hi)]
      exact htail.mono (by omega) (Nat.le_refl _)
    | true =>
      obtain ⟨bytes, hb, hlength⟩ := placement?_of_live width (hlive.trans hi)
      rw [extent_of_live hi] at hnext
      rw [placements_cons, hb]
      refine ⟨hle, ?_⟩
      rw [Placement.stop, hlength, ← hnext]
      exact htail

end FixedWidth

end MethodAssembler
