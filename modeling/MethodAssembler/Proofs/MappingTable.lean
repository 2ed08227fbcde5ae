import MethodAssembler.MappingTable.Verify
import MethodAssembler.Proofs.Leb128
import MethodAssembler.Proofs.Words

/-! # Mapping tables

A table spells the entries of its two blocks as differences. Encoding succeeds if the native offsets of each block do not
decrease and the entries can be counted; decoding then gives the blocks back, so a table passes the check against
the markers it was made from. -/

namespace MethodAssembler.MappingTable

/-- The entries of one block among markers, in order. -/
def entriesOf (kind : MappingKind) : List (MappingKind × MappingEntry) → List MappingEntry
  | [] => []
  | (k, e) :: rest => if k = kind then e :: entriesOf kind rest else entriesOf kind rest

theorem entriesOf_append (kind : MappingKind) (xs ys : List (MappingKind × MappingEntry)) :
    entriesOf kind (xs ++ ys) = entriesOf kind xs ++ entriesOf kind ys := by
  induction xs with
  | nil => rfl
  | cons x xs ih =>
    obtain ⟨k, e⟩ := x
    simp only [List.cons_append, entriesOf, ih]
    split <;> rfl

/-- The bytes of a block behind the entry `last`. -/
def blockBytes : (last : MappingEntry) → List MappingEntry → List UInt8
  | _, [] => []
  | last, e :: rest =>
    Leb128.encodeUnsigned (e.nativeOffset - last.nativeOffset) ++ Leb128.encodeSigned (e.dexPc - last.dexPc).toInt32 ++
      blockBytes e rest

/-- Native offsets do not decrease from `last` on. -/
def Ordered : (last : MappingEntry) → List MappingEntry → Prop
  | _, [] => True
  | last, e :: rest => last.nativeOffset ≤ e.nativeOffset ∧ Ordered e rest

/-! ### Writing -/

section Writing
variable {b b' : Blocks Progress} {kind : MappingKind} {e : MappingEntry} {markers : List (MappingKind × MappingEntry)}

theorem Blocks.get_modify {α : Type} (b : Blocks α) (kind k : MappingKind) (f : α → α) :
    (b.modify kind f).get k = if k = kind then f (b.get k) else b.get k := by
  cases kind <;> cases k <;> rfl

theorem Blocks.get_set {α : Type} (b : Blocks α) (kind k : MappingKind) (a : α) :
    (b.set kind a).get k = if k = kind then a else b.get k := by
  rw [set, get_modify]

/-- How one block goes on when an entry is added to it. -/
structure Progress.Next (p : Progress) (e : MappingEntry) (q : Progress) : Prop where
  le : p.last.nativeOffset ≤ e.nativeOffset
  last : q.last = e
  count : q.count.toNat = p.count.toNat + 1
  bytes : q.bytes = p.bytes + (Leb128.encodeUnsigned (e.nativeOffset - p.last.nativeOffset)).length +
    (Leb128.encodeSigned (e.dexPc - p.last.dexPc).toInt32).length

theorem Progress.step_eq_ok {p q : Progress} {d : UInt32 × Int32} :
    p.step kind e = .ok (d, q) ↔
      d = (e.nativeOffset - p.last.nativeOffset, (e.dexPc - p.last.dexPc).toInt32) ∧ p.Next e q := by
  rw [step]
  by_cases hlt : e.nativeOffset < p.last.nativeOffset
  · simp only [hlt, if_true, Checked.throw_eq, Checked.error_bind, reduceCtorEq, false_iff, not_and]
    exact fun _ h => absurd h.le (UInt32.not_le.mpr hlt)
  · simp only [hlt, if_false, Checked.bind_eq_ok, addWords_eq_ok, Checked.pure_eq, Except.ok.injEq, Prod.mk.injEq,
      ← Leb128.length_encodeUnsigned, ← Leb128.length_encodeSigned]
    constructor
    · rintro ⟨count, hcount, rfl, rfl⟩
      exact ⟨rfl, UInt32.not_lt.mp hlt, rfl, hcount, rfl⟩
    · rintro ⟨rfl, h⟩
      refine ⟨q.count, h.count, rfl, ?_⟩
      rw [← h.bytes]
      exact h.last ▸ rfl

/-- Measuring counts the entries of both blocks and adds up their bytes. -/
theorem measure_eq_ok {sizes : Blocks Progress} (h : measure markers b = .ok sizes) (k : MappingKind) :
    Ordered (b.get k).last (entriesOf k markers) ∧
      (sizes.get k).count.toNat = (b.get k).count.toNat + (entriesOf k markers).length ∧
      (sizes.get k).bytes = (b.get k).bytes + (blockBytes (b.get k).last (entriesOf k markers)).length := by
  induction markers generalizing b with
  | nil =>
    cases h
    exact ⟨trivial, rfl, rfl⟩
  | cons marker markers ih =>
    obtain ⟨kind, e⟩ := marker
    obtain ⟨⟨d, p⟩, hstep, h⟩ := Checked.bind_eq_ok.mp h
    obtain ⟨-, hnext⟩ := Progress.step_eq_ok.mp hstep
    have hrest := ih h
    rw [Blocks.get_set] at hrest
    by_cases hk : kind = k
    · subst hk
      rw [if_pos rfl, hnext.last, hnext.count, hnext.bytes] at hrest
      simp only [entriesOf, if_true, Ordered, blockBytes, List.length_cons, List.length_append]
      exact ⟨⟨hnext.le, hrest.1⟩, by omega, by omega⟩
    · rw [if_neg (Ne.symm hk)] at hrest
      simpa only [entriesOf, if_neg hk] using hrest

/-- What was measured can be written. -/
theorem writeBlocks_of_measure {sizes : Blocks Progress} (h : measure markers b = .ok sizes) (out : Blocks Bytes) :
    ∃ out', writeBlocks markers b out = .ok out' ∧
      ∀ k, out'.get k = out.get k ++ blockBytes (b.get k).last (entriesOf k markers) := by
  induction markers generalizing b out with
  | nil => exact ⟨out, rfl, fun k => by simp [entriesOf, blockBytes]⟩
  | cons marker markers ih =>
    obtain ⟨kind, e⟩ := marker
    obtain ⟨⟨d, p⟩, hstep, h⟩ := Checked.bind_eq_ok.mp h
    obtain ⟨rfl, hnext⟩ := Progress.step_eq_ok.mp hstep
    obtain ⟨out', hwrite, hout'⟩ := ih h (out.modify kind fun block =>
      block ++ Leb128.encodeUnsigned (e.nativeOffset - (b.get kind).last.nativeOffset) ++
        Leb128.encodeSigned (e.dexPc - (b.get kind).last.dexPc).toInt32)
    refine ⟨out', by simp only [writeBlocks, hstep, Checked.ok_bind, hwrite], fun k => ?_⟩
    rw [hout' k, Blocks.get_modify, Blocks.get_set]
    by_cases hk : kind = k
    · subst hk
      simp only [if_true, entriesOf, blockBytes, hnext.last]
      apply Array.toList_inj.mp
      simp
    · simp only [entriesOf, if_neg hk, if_neg (Ne.symm hk)]

/-- What follows an entry goes on from it in its block, and from where it was in the other one. -/
theorem ordered_set {q : Progress} (ho : ∀ k, Ordered (b.get k).last (entriesOf k ((kind, e) :: markers)))
    (hq : q.last = e) (k : MappingKind) : Ordered ((b.set kind q).get k).last (entriesOf k markers) := by
  have hk := ho k
  rw [Blocks.get_set]
  by_cases hkind : kind = k
  · subst hkind
    simp only [entriesOf, if_true, Ordered] at hk
    rw [if_pos rfl, hq]
    exact hk.2
  · simp only [entriesOf, if_neg hkind] at hk
    rwa [if_neg (Ne.symm hkind)]

theorem measure_of_ordered (ho : ∀ k, Ordered (b.get k).last (entriesOf k markers))
    (hc : ∀ k, (b.get k).count.toNat + (entriesOf k markers).length < 2 ^ 32) : ∃ sizes, measure markers b = .ok sizes := by
  induction markers generalizing b with
  | nil => exact ⟨b, rfl⟩
  | cons marker markers ih =>
    obtain ⟨kind, e⟩ := marker
    have hkind := ho kind
    have hcount := hc kind
    simp only [entriesOf, if_true, Ordered, List.length_cons] at hkind hcount
    obtain ⟨count, -, hvalue⟩ := addWords_of_lt (show (b.get kind).count.toNat + (1 : UInt32).toNat < 2 ^ 32 by
      show _ + 1 < _
      omega)
    obtain ⟨q, hq⟩ : ∃ q, (b.get kind).Next e q := ⟨⟨e, count, _⟩, hkind.1, rfl, hvalue, rfl⟩
    -- The entry is counted in its own block, and the other one stays as it was.
    have hcounts : ∀ k, ((b.set kind q).get k).count.toNat + (entriesOf k markers).length < 2 ^ 32 := by
      intro k
      rw [Blocks.get_set]
      by_cases hk : kind = k
      · subst hk
        rw [if_pos rfl, hq.count]
        omega
      · have hother := hc k
        simp only [entriesOf, if_neg hk] at hother
        rwa [if_neg (Ne.symm hk)]
    obtain ⟨sizes, hsizes⟩ := ih (ordered_set ho hq.last) hcounts
    exact ⟨sizes, Checked.bind_eq_ok.mpr ⟨_, Progress.step_eq_ok.mpr ⟨rfl, hq⟩, hsizes⟩⟩

/-- Entries whose offsets do not decrease are not refused. There may be too many of them to count. -/
theorem measure_refuses {P : Error → Prop} (ho : ∀ k, Ordered (b.get k).last (entriesOf k markers)) :
    Checked.RefusesOnly P (measure markers b) := by
  induction markers generalizing b with
  | nil => exact .ok _
  | cons marker markers ih =>
    obtain ⟨kind, e⟩ := marker
    have hle := ho kind
    simp only [entriesOf, if_true, Ordered] at hle
    refine .bind_known ?_ fun r hstep => ih (ordered_set ho (Progress.step_eq_ok.mp hstep).2.last)
    rw [Progress.step, if_neg (UInt32.not_lt.mpr hle.1)]
    exact (Checked.RefusesOnly.addWords _ _).bind fun _ => .ok _

/-- The bytes of a table with these blocks. -/
def tableBytes (pcToDex dexToPc : List MappingEntry) : List UInt8 :=
  Leb128.encodeUnsigned (.ofNat (pcToDex.length + dexToPc.length)) ++ Leb128.encodeUnsigned (.ofNat pcToDex.length) ++
    blockBytes ⟨0, 0⟩ pcToDex ++ blockBytes ⟨0, 0⟩ dexToPc

/-- Everything that was measured is written, so no comparison of sizes fails. -/
theorem encode_of_measure {sizes : Blocks Progress} (h : measure markers ⟨{}, {}⟩ = .ok sizes)
    (hc : (entriesOf .pcToDex markers).length + (entriesOf .dexToPc markers).length < 2 ^ 32) :
    ∃ built, encode markers = .ok built ∧
      built.table.toList = tableBytes (entriesOf .pcToDex markers) (entriesOf .dexToPc markers) := by
  obtain ⟨-, hpc, hpcBytes⟩ := measure_eq_ok h .pcToDex
  obtain ⟨-, hdex, hdexBytes⟩ := measure_eq_ok h .dexToPc
  simp only [Blocks.get] at hpc hpcBytes hdex hdexBytes
  have hpc : sizes.pcToDex.count.toNat = (entriesOf .pcToDex markers).length := hpc.trans (Nat.zero_add _)
  have hdex : sizes.dexToPc.count.toNat = (entriesOf .dexToPc markers).length := hdex.trans (Nat.zero_add _)
  obtain ⟨total, htotal, hvalue⟩ := addWords_of_lt (hpc ▸ hdex ▸ hc)
  have hfirst : sizes.pcToDex.count = .ofNat (entriesOf .pcToDex markers).length := by rw [← hpc, UInt32.ofNat_toNat]
  have hsum : total = .ofNat ((entriesOf .pcToDex markers).length + (entriesOf .dexToPc markers).length) := by
    rw [← hpc, ← hdex, ← hvalue, UInt32.ofNat_toNat]
  obtain ⟨out, hout, hblocks⟩ := writeBlocks_of_measure h
    ⟨(Leb128.encodeUnsigned total ++ Leb128.encodeUnsigned sizes.pcToDex.count).toArray, #[]⟩
  have hpcBlock := hblocks .pcToDex
  have hdexBlock := hblocks .dexToPc
  simp only [Blocks.get] at hpcBlock hdexBlock
  -- The sizes that are compared while the table is made.
  have hheader : (Leb128.encodeUnsigned total ++ Leb128.encodeUnsigned sizes.pcToDex.count).toArray.size =
      Leb128.unsignedSize total + Leb128.unsignedSize sizes.pcToDex.count := by
    simp [Leb128.length_encodeUnsigned]
  have hpcSize : out.pcToDex.size =
      Leb128.unsignedSize total + Leb128.unsignedSize sizes.pcToDex.count + sizes.pcToDex.bytes := by
    rw [hpcBlock, hpcBytes, ← hheader]
    simp [Nat.add_assoc]
  have hdexSize : out.dexToPc.size = sizes.dexToPc.bytes := by
    rw [hdexBlock, hdexBytes]
    simp
  simp only [encode, h, Checked.ok_bind, htotal, hheader, decide_true, require_true, hout, hpcSize, Array.size_append,
    hdexSize]
  refine ⟨_, rfl, ?_⟩
  simp [hpcBlock, hdexBlock, tableBytes, hfirst, hsum]

theorem encode_of_ordered (ho : ∀ k, Ordered ⟨0, 0⟩ (entriesOf k markers))
    (hc : (entriesOf .pcToDex markers).length + (entriesOf .dexToPc markers).length < 2 ^ 32) :
    ∃ built, encode markers = .ok built := by
  have hcounts : ∀ k, ((⟨{}, {}⟩ : Blocks Progress).get k).count.toNat + (entriesOf k markers).length < 2 ^ 32 := by
    intro k
    cases k <;> simp only [Blocks.get] <;> show 0 + _ < _ <;> omega
  obtain ⟨sizes, hsizes⟩ := measure_of_ordered (fun k => by cases k <;> exact ho _) hcounts
  obtain ⟨built, hbuilt, -⟩ := encode_of_measure hsizes hc
  exact ⟨built, hbuilt⟩

theorem encode_refuses {P : Error → Prop} (ho : ∀ k, Ordered ⟨0, 0⟩ (entriesOf k markers)) :
    Checked.RefusesOnly P (encode markers) := by
  refine (measure_refuses fun k => by cases k <;> exact ho _).bind_known fun sizes hsizes => ?_
  refine (Checked.RefusesOnly.addWords _ _).bind fun total => (Checked.RefusesOnly.require _).bind fun _ => ?_
  obtain ⟨out, hout, -⟩ := writeBlocks_of_measure hsizes
    ⟨(Leb128.encodeUnsigned total ++ Leb128.encodeUnsigned sizes.pcToDex.count).toArray, #[]⟩
  rw [hout]
  exact (Checked.RefusesOnly.require _).bind fun _ => (Checked.RefusesOnly.require _).bind fun _ => .ok _

/-- A table that was encoded spells its two blocks. -/
theorem table_of_encode {built : Built} (h : encode markers = .ok built) :
    built.table.toList = tableBytes (entriesOf .pcToDex markers) (entriesOf .dexToPc markers) ∧
      (entriesOf .pcToDex markers).length + (entriesOf .dexToPc markers).length < 2 ^ 32 := by
  obtain ⟨sizes, hsizes, hrest⟩ := Checked.bind_eq_ok.mp h
  obtain ⟨total, htotal, -⟩ := Checked.bind_eq_ok.mp hrest
  have hpc : sizes.pcToDex.count.toNat = 0 + _ := (measure_eq_ok hsizes .pcToDex).2.1
  have hdex : sizes.dexToPc.count.toNat = 0 + _ := (measure_eq_ok hsizes .dexToPc).2.1
  have hc : (entriesOf .pcToDex markers).length + (entriesOf .dexToPc markers).length < 2 ^ 32 := by
    have hsum := addWords_eq_ok.mp htotal
    have hlt := total.toNat_lt
    omega
  obtain ⟨built', hbuilt', htable⟩ := encode_of_measure hsizes hc
  rw [h] at hbuilt'
  cases hbuilt'
  exact ⟨htable, hc⟩

end Writing

/-! ### Reading -/

theorem advance_differences (last e : MappingEntry) :
    advance last (e.nativeOffset - last.nativeOffset) (e.dexPc - last.dexPc).toInt32 = e := by
  have hcancel : ∀ a b : UInt32, a + (b - a) = b := fun a b => by
    rw [UInt32.add_comm, UInt32.sub_add_cancel]
  simp [advance, hcancel]

theorem takeBlock_blockBytes (last : MappingEntry) (entries : List MappingEntry) (rest : List UInt8) :
    takeBlock entries.length last (blockBytes last entries ++ rest) = .ok (entries, rest) := by
  induction entries generalizing last with
  | nil => rfl
  | cons e entries ih =>
    simp only [List.length_cons, takeBlock, blockBytes, List.append_assoc, Leb128.takeUnsigned_encode,
      Leb128.takeSigned_encode, Checked.ok_bind, advance_differences, ih, Checked.pure_eq]

theorem ofBytes_tableBytes {pcToDex dexToPc : List MappingEntry} (h : pcToDex.length + dexToPc.length < 2 ^ 32) :
    ofBytes (tableBytes pcToDex dexToPc) = .ok ⟨pcToDex, dexToPc⟩ := by
  -- A table starts with its counts, so it is not read as one without bytes.
  have hne : tableBytes pcToDex dexToPc ≠ [] := by
    intro hnil
    have htake := Leb128.takeUnsigned_encode (.ofNat (pcToDex.length + dexToPc.length))
      (Leb128.encodeUnsigned (.ofNat pcToDex.length) ++ (blockBytes ⟨0, 0⟩ pcToDex ++ blockBytes ⟨0, 0⟩ dexToPc))
    simp only [tableBytes, List.append_assoc] at hnil
    rw [hnil] at htake
    cases htake
  have htotal : (UInt32.ofNat (pcToDex.length + dexToPc.length)).toNat = pcToDex.length + dexToPc.length :=
    UInt32.toNat_ofNat_of_lt' h
  have hfirst : (UInt32.ofNat pcToDex.length).toNat = pcToDex.length :=
    UInt32.toNat_ofNat_of_lt' (show _ < 2 ^ 32 by omega)
  have hle : ¬UInt32.ofNat (pcToDex.length + dexToPc.length) < UInt32.ofNat pcToDex.length := by
    rw [UInt32.lt_iff_toNat_lt, htotal, hfirst]
    omega
  have hblock := takeBlock_blockBytes ⟨0, 0⟩ dexToPc []
  rw [List.append_nil] at hblock
  rw [ofBytes.eq_2 _ hne]
  simp only [tableBytes, List.append_assoc, Leb128.takeUnsigned_encode, Checked.ok_bind, hle, if_false, hfirst,
    takeBlock_blockBytes, htotal, Nat.add_sub_cancel_left, hblock]
  rfl

/-- Decoding an encoded table gives its blocks back. -/
theorem decode_encode {markers : List (MappingKind × MappingEntry)} {built : Built} (h : encode markers = .ok built) :
    decode built.table = .ok ⟨entriesOf .pcToDex markers, entriesOf .dexToPc markers⟩ := by
  obtain ⟨htable, hc⟩ := table_of_encode h
  rw [decode, htable, ofBytes_tableBytes hc]
  rfl

/-! ### Checking -/

section Checking
variable {b : Blocks (List MappingEntry)} {kind : MappingKind} {e : MappingEntry}
  {markers : List (InstrId × MappingKind × MappingEntry)}

/-- A marker takes its entry off the front of its block, unless it meets another one there or none. -/
theorem matchMarkers_cons (id : InstrId) (kind : MappingKind) (e : MappingEntry)
    (markers : List (InstrId × MappingKind × MappingEntry)) (b : Blocks (List MappingEntry)) :
    (∃ left, b.get kind = e :: left ∧
      matchMarkers ((id, kind, e) :: markers) b = matchMarkers markers (b.set kind left)) ∨
    (b.get kind = [] ∧
      matchMarkers ((id, kind, e) :: markers) b = .error (.refused (.mappingMismatch (.endsBefore id)))) ∨
    ∃ found left, b.get kind = found :: left ∧ found ≠ e ∧
      matchMarkers ((id, kind, e) :: markers) b = .error (.refused (.mappingMismatch (.wrongEntry id e found))) := by
  rw [matchMarkers]
  cases hblock : b.get kind with
  | nil => exact .inr (.inl ⟨rfl, rfl⟩)
  | cons found left =>
    by_cases hfound : found = e
    · subst hfound
      exact .inl ⟨left, rfl, if_pos rfl⟩
    · exact .inr (.inr ⟨found, left, rfl, hfound, if_neg hfound⟩)

theorem matchMarkers_nil (b : Blocks (List MappingEntry)) :
    (∀ k, b.get k = []) ∧ matchMarkers [] b = .ok () ∨
      (∃ k, b.get k ≠ []) ∧ matchMarkers [] b = .error (.refused (.mappingMismatch .surplus)) := by
  rw [matchMarkers]
  by_cases hpc : b.pcToDex = []
  · by_cases hdex : b.dexToPc = []
    · exact .inl ⟨fun k => by cases k <;> assumption, by rw [hpc, hdex]; rfl⟩
    · exact .inr ⟨⟨.dexToPc, hdex⟩, if_neg (by simp [hdex])⟩
  · exact .inr ⟨⟨.pcToDex, hpc⟩, if_neg (by simp [hpc])⟩

/-- Taking the first entry off a block leaves the other block as it is. -/
theorem Blocks.get_of_taken {left : List MappingEntry} (h : b.get kind = e :: left) (k : MappingKind) :
    b.get k = entriesOf k [(kind, e)] ++ (b.set kind left).get k := by
  rw [Blocks.get_set]
  by_cases hk : k = kind
  · subst hk
    simp [entriesOf, h]
  · simp [entriesOf, hk, Ne.symm hk]

/-- Markers are matched exactly if each block is the sequence of the entries of its kind. -/
theorem matchMarkers_eq_ok : matchMarkers markers b = .ok () ↔ ∀ k, b.get k = entriesOf k (markers.map (·.2)) := by
  induction markers generalizing b with
  | nil =>
    rcases matchMarkers_nil b with ⟨hempty, hok⟩ | ⟨⟨k, hk⟩, herror⟩
    · exact iff_of_true hok hempty
    · simp only [herror, reduceCtorEq, false_iff]
      exact fun h => hk (h k)
  | cons marker markers ih =>
    obtain ⟨id, kind, e⟩ := marker
    have hsplit : ∀ k, entriesOf k (((id, kind, e) :: markers).map (·.2)) =
        entriesOf k [(kind, e)] ++ entriesOf k (markers.map (·.2)) := fun k => entriesOf_append k [_] _
    have hhead : entriesOf kind [(kind, e)] = [e] := if_pos rfl
    -- The marker meets its own entry, the end of its block, or another entry.
    rcases matchMarkers_cons id kind e markers b with ⟨left, htaken, hnext⟩ | ⟨hnone, herror⟩ |
      ⟨found, left, hfound, hne, herror⟩
    · rw [hnext, ih]
      refine forall_congr' fun k => ?_
      rw [Blocks.get_of_taken htaken k, hsplit, List.append_cancel_left_eq]
    · simp only [herror, reduceCtorEq, false_iff]
      intro h
      have hblock := h kind
      rw [hsplit, hhead, hnone] at hblock
      cases hblock
    · simp only [herror, reduceCtorEq, false_iff]
      intro h
      have hblock := h kind
      rw [hsplit, hhead, hfound] at hblock
      exact hne (List.cons.inj hblock).1

/-- A table passes the check against the list that it was made from. -/
theorem verify_create {l : InstrList} {built : Built} (h : create l = .ok built) : verify built.table l = .ok () := by
  rw [verify, decode_encode h]
  exact matchMarkers_eq_ok.mpr fun k => by cases k <;> rfl

end Checking

end MethodAssembler.MappingTable
