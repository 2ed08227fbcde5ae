import MethodAssembler.Proofs.InstrList.Operations

/-! # Instruction lists refine plain sequences

An instruction list without its links is a sequence of ids beside the allocated instructions, a `PlainList`, and each
operation is a plain change of that sequence (`ListOp.plain`). Whatever operations are run on an empty list, the linked
list and the plain one reply alike and trap alike, and the links spell the plain sequence. -/

namespace MethodAssembler

/-- The operations on an instruction list. -/
inductive ListOp where
  | alloc (i : Instruction)
  | push (i : Instruction)
  | append (id : InstrId)
  | insertBefore (anchor id : InstrId)
  | insertAfter (anchor id : InstrId)
  | unlink (id : InstrId)
  | convertToNop (id : InstrId)
  | markSafepoint (id : InstrId)
  | markExported (dexPc : UInt32)
  /-- Any change of an allocated instruction; the links are not part of it. -/
  | change (id : InstrId) (f : Instruction → Instruction)

/-- Runs an operation and returns the instruction that it allocated, if any. -/
def ListOp.run : ListOp → ListM (Option InstrId)
  | .alloc i => some <$> InstrList.alloc i
  | .push i => some <$> InstrList.push i
  | .append id => (fun _ => none) <$> InstrList.append id
  | .insertBefore anchor id => (fun _ => none) <$> InstrList.insertBefore anchor id
  | .insertAfter anchor id => (fun _ => none) <$> InstrList.insertAfter anchor id
  | .unlink id => (fun _ => none) <$> InstrList.unlink id
  | .convertToNop id => (fun _ => none) <$> InstrList.convertToNop id
  | .markSafepoint id => some <$> InstrList.markSafepoint id
  | .markExported dexPc => some <$> InstrList.markExported dexPc
  | .change id f => (fun _ => none) <$> InstrList.modifyInstr id f

/-! ### Plain lists -/

/-- The allocated instructions, and the ids that are in the list. -/
structure PlainList where
  records : List Instruction := []
  ids : List InstrId := []
  retainNops : Bool := false
  limit : Option Nat := none

/-- A computation on a plain list. -/
abbrev PlainM := Stateful PlainList

namespace PlainList

def empty (retainNops : Bool) (limit : Option Nat) : PlainList := { retainNops, limit }

/-- The id is allocated and not in the list. -/
def Spare (s : PlainList) (id : InstrId) : Prop := id < s.records.length ∧ id ∉ s.ids

instance (s : PlainList) (id : InstrId) : Decidable (s.Spare id) := inferInstanceAs (Decidable (_ ∧ _))

def change (s : PlainList) (id : InstrId) (f : Instruction → Instruction) : PlainList :=
  { s with records := s.records.modify id f }

/-- Allocates an instruction, and puts it at the end of the list if it is to be linked. An arena that holds as many
    instructions as it may takes no more. -/
def add (i : Instruction) (linked : Bool) : PlainM (Option InstrId) := fun s =>
  match InstrList.reserve s.limit s.records.length with
  | .error e => .error e s
  | .ok _ => .ok (some s.records.length)
    { s with records := s.records ++ [i], ids := if linked then s.ids ++ [s.records.length] else s.ids }

end PlainList

/-- What an operation does to a plain list, and which instruction it allocated, if any. It traps on an id that is not
    allocated, on one to be linked that is in the list already, on an anchor that is not, and on a safepoint at an
    instruction whose masks must not be read. -/
def ListOp.plain : ListOp → PlainM (Option InstrId)
  | .alloc i => PlainList.add i false
  | .push i => PlainList.add i true
  | .append id => fun s =>
    if s.Spare id then .ok none { s with ids := s.ids ++ [id] } else .error .trap s
  | .insertBefore anchor id => fun s =>
    if anchor ∈ s.ids ∧ s.Spare id then
      .ok none { s with ids := s.ids.flatMap fun x => if x = anchor then [id, anchor] else [x] }
    else .error .trap s
  | .insertAfter anchor id => fun s =>
    if anchor ∈ s.ids ∧ s.Spare id then
      .ok none { s with ids := s.ids.flatMap fun x => if x = anchor then [anchor, id] else [x] }
    else .error .trap s
  | .unlink id => fun s =>
    if id < s.records.length then .ok none { s with ids := s.ids.erase id } else .error .trap s
  | .convertToNop id => fun s =>
    if id < s.records.length then
      .ok none { s.change id ({ · with isNop := true }) with
        ids := if s.retainNops then s.ids else s.ids.erase id }
    else .error .trap s
  | .markSafepoint id => fun s =>
    match s.records[id]? with
    | none => .error .trap s
    | some i =>
      if i.useDefInvalid then .error .trap s
      else PlainList.add (.marker .safepointPc i.dexPc) true (s.change id ({ · with defMask := Resource.all }))
  | .markExported dexPc => PlainList.add (.marker .exportedPc dexPc) true
  | .change id f => fun s => if id < s.records.length then .ok none (s.change id f) else .error .trap s

/-- Runs operations one after the other, as far as none of them traps, and collects what they reply. One that is
    refused does not stop the others. -/
def ListOp.runAll {σ : Type} (run : ListOp → Stateful σ (Option InstrId)) :
    List ListOp → σ → Option (List (Except Error (Option InstrId)) × σ)
  | [], s => some ([], s)
  | op :: ops, s =>
    match run op s with
    | .ok a s' => (runAll run ops s').map fun (replies, t) => (.ok a :: replies, t)
    | .error (.refused e) s' => (runAll run ops s').map fun (replies, t) => (.error e :: replies, t)
    | .error .trap _ => none

/-! ### What an operation does to the arena of a plain list -/

namespace PlainList

/-- The arena holds no more instructions than it may. -/
def Within (s : PlainList) : Prop := ∀ limit, s.limit = some limit → s.records.length ≤ limit

/-- How an operation on `s` may end: with at most one more instruction, for which there was room, or refused because
    there is none, with as many instructions as before. -/
def Grown (s : PlainList) : EStateM.Result Fault PlainList (Option InstrId) → Prop
  | .ok _ s' => s'.limit = s.limit ∧ s.records.length ≤ s'.records.length ∧ (s.Within → s'.Within)
  | .error (.refused e) s' => s'.limit = s.limit ∧ s'.records.length = s.records.length ∧
    ∃ limit, s.limit = some limit ∧ limit ≤ s.records.length ∧ e = .arenaExhausted limit
  | .error .trap _ => True

variable {s : PlainList}

/-- Only the number of instructions and the limit of the list before matter. -/
theorem Grown.of_same {s₁ : PlainList} {r : EStateM.Result Fault PlainList (Option InstrId)} (h : s₁.Grown r)
    (hlimit : s₁.limit = s.limit) (hlength : s₁.records.length = s.records.length) : s.Grown r := by
  have hwithin : s.Within → s₁.Within := fun hw limit hl => hlength ▸ hw limit (hlimit ▸ hl)
  match r, h with
  | .ok _ s', ⟨hl, hle, hw⟩ => exact ⟨hl.trans hlimit, hlength ▸ hle, fun hs => hw (hwithin hs)⟩
  | .error (.refused e) s', ⟨hl, hn, limit, hlim, hle, he⟩ =>
    exact ⟨hl.trans hlimit, hn.trans hlength, limit, hlimit ▸ hlim, hlength ▸ hle, he⟩
  | .error .trap _, _ => trivial

theorem grown_add (i : Instruction) (linked : Bool) : s.Grown (add i linked s) := by
  rw [add]
  rcases InstrList.reserve_cases s.limit s.records.length with ⟨limit, hl, hle, hr⟩ | ⟨hroom, hr⟩
  · rw [hr]
    exact ⟨rfl, rfl, limit, hl, hle, rfl⟩
  · rw [hr]
    refine ⟨rfl, by simp, fun _ limit hl => ?_⟩
    rw [List.length_append, List.length_singleton]
    exact hroom limit hl

/-- A result with as many instructions, or a trap. -/
theorem grown_ite {c : Prop} [Decidable c] {a : Option InstrId} {s' : PlainList} (hlimit : s'.limit = s.limit)
    (hlength : s'.records.length = s.records.length) : s.Grown (if c then .ok a s' else .error .trap s) := by
  split
  · refine ⟨hlimit, Nat.le_of_eq hlength.symm, fun h limit hl => ?_⟩
    rw [hlength]
    exact h limit (hlimit ▸ hl)
  · trivial

theorem length_change (id : InstrId) (f : Instruction → Instruction) :
    (s.change id f).records.length = s.records.length := List.length_modify ..

theorem grown_markSafepoint (id : InstrId) : s.Grown ((ListOp.markSafepoint id).plain s) := by
  simp only [ListOp.plain]
  split
  · trivial
  · rename_i i _
    split
    · trivial
    · exact (grown_add (.marker .safepointPc i.dexPc) true).of_same rfl (length_change id _)

theorem grown_plain (op : ListOp) : s.Grown (op.plain s) := by
  cases op with
  | alloc i => exact grown_add i false
  | push i => exact grown_add i true
  | append id => exact grown_ite rfl rfl
  | insertBefore anchor id => exact grown_ite rfl rfl
  | insertAfter anchor id => exact grown_ite rfl rfl
  | unlink id => exact grown_ite rfl rfl
  | convertToNop id => exact grown_ite rfl (length_change id _)
  | markSafepoint id => exact grown_markSafepoint id
  | markExported dexPc => exact grown_add _ true
  | change id f => exact grown_ite rfl (length_change id f)

end PlainList

namespace InstrList

/-- The links of every node of the arena, and whether it is in the list. -/
def links (l : InstrList) : List (Option InstrId × Option InstrId × Bool) :=
  l.arena.toList.map fun n => (n.prev, n.next, n.linked)

/-- The links of the list spell the sequence of the plain list, in both directions. -/
structure Represents (l : InstrList) (s : PlainList) : Prop where
  records : l.contents = s.records
  limit : l.limit = s.limit
  nodup : s.ids.Nodup
  order : l.order = s.ids
  first : l.first = s.ids.head?
  last : l.last = s.ids.getLast?
  length : l.length = s.ids.length
  neighbours : ∀ (k : Nat) (id : InstrId), s.ids[k]? = some id → ∃ n, l.arena[id]? = some n ∧
    n.prev = (if k = 0 then none else s.ids[k - 1]?) ∧ n.next = s.ids[k + 1]?
  linked : ∀ (id : InstrId) (n : Node), l.arena[id]? = some n → (n.linked = true ↔ id ∈ s.ids)

/-- How an operation on `l` and the same one on a plain list end: with the same reply, or refused with the same error
    and with the sequence and all links of `l` as they were, and then with lists for which `R` holds; or both in a
    trap. -/
inductive Matches (R : InstrList → PlainList → Prop) (l : InstrList) :
    EStateM.Result Fault InstrList (Option InstrId) → EStateM.Result Fault PlainList (Option InstrId) → Prop
  | ok {a : Option InstrId} {l' : InstrList} {s' : PlainList} : R l' s' → Matches R l (.ok a l') (.ok a s')
  | refused {e : Error} {l' : InstrList} {s' : PlainList} : R l' s' → l'.order = l.order → l'.links = l.links →
      Matches R l (.error (.refused e) l') (.error (.refused e) s')
  | trap {l' : InstrList} {s' : PlainList} : Matches R l (.error .trap l') (.error .trap s')

/-! ### The invariant -/

/-- A list that links the sequence of a plain list and holds its instructions. -/
structure Refines (l : InstrList) (s : PlainList) : Prop where
  links : l.Links s.ids
  records : l.contents = s.records
  retainNops : l.retainNops = s.retainNops
  limit : l.limit = s.limit

theorem refines_empty (retainNops : Bool) (limit : Option Nat) :
    Refines (empty retainNops limit) (.empty retainNops limit) :=
  ⟨links_empty retainNops limit, rfl, rfl, rfl⟩

/-- Every list that links a sequence refines the plain list with this sequence and its instructions. -/
theorem Links.refines {l : InstrList} {ids : List InstrId} (h : l.Links ids) :
    l.Refines ⟨l.contents, ids, l.retainNops, l.limit⟩ := ⟨h, rfl, rfl, rfl⟩

/-- The neighbours of a member are those that the sequence has at the places before and behind it. -/
theorem Links.neighbours {l : InstrList} {ids : List InstrId} (h : l.Links ids) {k : Nat} {id : InstrId}
    (hk : ids[k]? = some id) :
    ∃ n, l.arena[id]? = some n ∧ n.prev = (if k = 0 then none else ids[k - 1]?) ∧ n.next = ids[k + 1]? := by
  obtain ⟨hlt, rfl⟩ := List.getElem?_eq_some_iff.mp hk
  have hsplit : ids = ids.take k ++ ids[k] :: ids.drop (k + 1) := by simp
  have hsegment := h.segment
  rw [hsplit] at hsegment
  obtain ⟨n, hn, hprev, hnext, -⟩ := hsegment.node
  refine ⟨n, hn, ?_, ?_⟩
  · rw [hprev, Option.or_none, List.getLast?_take]
    rcases Nat.eq_zero_or_pos k with rfl | hpos
    · simp
    · have hsome : k - 1 < ids.length := by omega
      simp [Nat.ne_of_gt hpos, List.getElem?_eq_getElem hsome]
  · rw [hnext, Option.or_none, List.head?_drop]

namespace Refines
variable {l l' : InstrList} {s : PlainList} {id : InstrId} {n : Node}

theorem represents (h : l.Refines s) : l.Represents s where
  records := h.records
  limit := h.limit
  nodup := h.links.nodup
  order := h.links.order_eq
  first := h.links.first
  last := h.links.last
  length := h.links.length
  neighbours := fun _ _ hk => h.links.neighbours hk
  linked := fun _ _ hn => h.links.linked_iff hn

theorem size (h : l.Refines s) : l.arena.size = s.records.length := by
  rw [← contents_length, h.records]

theorem stands_true (h : l.Refines s) : l.Stands id true ↔ id ∈ s.ids := by
  constructor
  · rintro ⟨n, hn, hl⟩
    exact h.links.linked hn hl
  · intro hid
    have hn := Array.getElem?_eq_getElem (h.links.lt_size hid)
    exact ⟨_, hn, (h.links.linked_iff hn).mpr hid⟩

theorem stands_false (h : l.Refines s) : l.Stands id false ↔ s.Spare id := by
  constructor
  · rintro ⟨n, hn, hl⟩
    exact ⟨h.size ▸ lt_of_getElem? hn, h.links.not_mem hn hl⟩
  · rintro ⟨hlt, hid⟩
    have hn := Array.getElem?_eq_getElem (h.size ▸ hlt)
    exact ⟨_, hn, Bool.eq_false_iff.mpr fun hl => hid (h.links.linked hn hl)⟩

/-- Relinking alone makes a refinement of the sequence that is linked then. -/
theorem relinked (h : l.Refines s) (hk : Kept l l') {ids : List InstrId} (hlinks : l'.Links ids) :
    l'.Refines { s with ids } :=
  ⟨hlinks, hk.contents.trans h.records, hk.retainNops.trans h.retainNops, hk.limit.trans h.limit⟩

theorem changed (h : l.Refines s) (id : InstrId) (f : Instruction → Instruction) :
    (l.changed id f).Refines (s.change id f) where
  links := h.links.changed
  records := by rw [contents_changed, h.records, PlainList.change]
  retainNops := h.retainNops
  limit := h.limit

end Refines

/-! ### Sequences -/

section Sequences
variable {before after : List InstrId} {id anchor : InstrId}

/-- What is put in the place of one member of a duplicate-free sequence. -/
theorem flatMap_anchor (hd : (before ++ anchor :: after).Nodup) (put : List InstrId) :
    (before ++ anchor :: after).flatMap (fun x => if x = anchor then put else [x]) = before ++ put ++ after := by
  have hstays : ∀ xs : List InstrId, anchor ∉ xs → xs.flatMap (fun x => if x = anchor then put else [x]) = xs := by
    intro xs hxs
    induction xs with
    | nil => rfl
    | cons x xs ih =>
      obtain ⟨hx, hxs⟩ := not_or.mp (fun h => hxs (List.mem_cons.mpr h))
      rw [List.flatMap_cons, if_neg (Ne.symm hx), ih hxs, List.singleton_append]
  have hnot := (List.nodup_cons.mp (List.nodup_middle.mp hd)).1
  rw [List.mem_append, not_or] at hnot
  rw [List.flatMap_append, List.flatMap_cons, if_pos rfl, hstays before hnot.1, hstays after hnot.2, List.append_assoc]

theorem erase_middle (hd : (before ++ id :: after).Nodup) : (before ++ id :: after).erase id = before ++ after := by
  have hnot := (List.nodup_cons.mp (List.nodup_middle.mp hd)).1
  rw [List.erase_append_right _ fun h => hnot (List.mem_append_left _ h), List.erase_cons_head]

end Sequences

/-! ### One operation -/

theorem links_changed {l : InstrList} {id : InstrId} {f : Instruction → Instruction} :
    (l.changed id f).links = l.links := by
  apply List.ext_getElem?
  intro x
  simp only [links, changed, List.getElem?_map, Array.getElem?_toList, Array.getElem?_modify]
  split <;> simp [Function.comp_def]

namespace Matches
variable {R : InstrList → PlainList → Prop} {l l₁ : InstrList} {α : Type} {x : ListM α} {f : α → Option InstrId}

theorem map_ok {a : α} {l' : InstrList} {s' : PlainList} (hx : x l = .ok a l') (h : R l' s') :
    Matches R l ((f <$> x) l) (.ok (f a) s') := by
  simp only [Functor.map, EStateM.map, hx]
  exact .ok h

theorem map_trap {l' : InstrList} {s' : PlainList} (hx : x l = .error .trap l') :
    Matches R l ((f <$> x) l) (.error .trap s') := by
  simp only [Functor.map, EStateM.map, hx]
  exact .trap

theorem map_refused {e : Error} {s' : PlainList} (hx : x l = .error (.refused e) l) (h : R l s') :
    Matches R l ((f <$> x) l) (.error (.refused e) s') := by
  simp only [Functor.map, EStateM.map, hx]
  exact .refused h rfl rfl

/-- A list with the same sequence and links may stand for the one before the operation. -/
theorem of_links {r : EStateM.Result Fault InstrList (Option InstrId)}
    {p : EStateM.Result Fault PlainList (Option InstrId)} (h : Matches R l₁ r p) (ho : l₁.order = l.order)
    (hl : l₁.links = l.links) : Matches R l r p := by
  cases h with
  | ok h => exact .ok h
  | refused h horder hlinks => exact .refused h (horder.trans ho) (hlinks.trans hl)
  | trap => exact .trap

theorem mono {R' : InstrList → PlainList → Prop} {r : EStateM.Result Fault InstrList (Option InstrId)}
    {p : EStateM.Result Fault PlainList (Option InstrId)} (h : Matches R l r p) (hR : ∀ l s, R l s → R' l s) :
    Matches R' l r p := by
  cases h with
  | ok h => exact .ok (hR _ _ h)
  | refused h horder hlinks => exact .refused (hR _ _ h) horder hlinks
  | trap => exact .trap

end Matches

namespace Refines
variable {l : InstrList} {s : PlainList}

theorem matches_alloc (h : l.Refines s) (i : Instruction) :
    Matches Refines l ((some <$> alloc i) l) (PlainList.add i false s) := by
  rw [PlainList.add, ← h.size]
  rcases reserve_cases s.limit l.arena.size with ⟨limit, hl, hle, hr⟩ | ⟨hroom, hr⟩
  · rw [hr]
    exact .map_refused (alloc_exhausted i (h.limit.trans hl) hle) h
  · rw [hr]
    refine .map_ok (alloc_run i fun most hl => hroom most (h.limit.symm.trans hl))
      ⟨h.links.allocated i, ?_, h.retainNops, h.limit⟩
    rw [contents_allocated, h.records]

theorem matches_push (h : l.Refines s) (i : Instruction) :
    Matches Refines l ((some <$> push i) l) (PlainList.add i true s) := by
  rw [PlainList.add, ← h.size]
  rcases reserve_cases s.limit l.arena.size with ⟨limit, hl, hle, hr⟩ | ⟨hroom, hr⟩
  · rw [hr]
    exact .map_refused (push_exhausted i (h.limit.trans hl) hle) h
  · rw [hr]
    refine .map_ok (push_run h.links i fun most hl => hroom most (h.limit.symm.trans hl))
      ⟨h.links.pushed i, ?_, h.retainNops, h.limit⟩
    rw [contents_pushed, h.records]

theorem matches_append (h : l.Refines s) (id : InstrId) :
    Matches Refines l ((ListOp.append id).run l) ((ListOp.append id).plain s) := by
  simp only [ListOp.run, ListOp.plain]
  split
  · rename_i hs
    obtain ⟨n, hn, hl⟩ := h.stands_false.mpr hs
    refine .map_ok (append_run h.links hn hl) (h.relinked kept_spliceIn ?_)
    exact Links.spliceIn (by rw [List.append_nil]; exact h.links) hn hl
  · rename_i hs
    exact .map_trap (append_trap (mt h.stands_false.mp hs))

theorem matches_insertBefore (h : l.Refines s) (anchor id : InstrId) :
    Matches Refines l ((ListOp.insertBefore anchor id).run l) ((ListOp.insertBefore anchor id).plain s) := by
  simp only [ListOp.run, ListOp.plain]
  split
  · rename_i hs
    obtain ⟨n, hn, hl⟩ := h.stands_false.mpr hs.2
    obtain ⟨before, after, hids⟩ := List.append_of_mem hs.1
    have hlinks := h.links
    rw [hids] at hlinks ⊢
    rw [flatMap_anchor hlinks.nodup]
    exact .map_ok (insertBefore_run hlinks hn hl) (h.relinked kept_spliceIn (by simpa using hlinks.spliceIn hn hl))
  · rename_i hs
    exact .map_trap (insertBefore_trap fun hst => hs ⟨h.stands_true.mp hst.1, h.stands_false.mp hst.2⟩)

theorem matches_insertAfter (h : l.Refines s) (anchor id : InstrId) :
    Matches Refines l ((ListOp.insertAfter anchor id).run l) ((ListOp.insertAfter anchor id).plain s) := by
  simp only [ListOp.run, ListOp.plain]
  split
  · rename_i hs
    obtain ⟨n, hn, hl⟩ := h.stands_false.mpr hs.2
    obtain ⟨before, after, hids⟩ := List.append_of_mem hs.1
    have hlinks := h.links
    rw [hids] at hlinks ⊢
    rw [flatMap_anchor hlinks.nodup]
    have hlinks' : l.Links ((before ++ [anchor]) ++ after) := by simpa using hlinks
    exact .map_ok (insertAfter_run hlinks hn hl) (h.relinked kept_spliceIn (by simpa using hlinks'.spliceIn hn hl))
  · rename_i hs
    exact .map_trap (insertAfter_trap fun hst => hs ⟨h.stands_true.mp hst.1, h.stands_false.mp hst.2⟩)

/-- Unlinking takes the id out of the sequence, wherever it is, and does nothing if it is not there. -/
theorem unlink_run (h : l.Refines s) {id : InstrId} (hid : id < s.records.length) :
    ∃ l', unlink id l = .ok () l' ∧ l'.Refines { s with ids := s.ids.erase id } := by
  by_cases hmem : id ∈ s.ids
  · obtain ⟨before, after, hids⟩ := List.append_of_mem hmem
    have hlinks := h.links
    rw [hids] at hlinks ⊢
    rw [erase_middle hlinks.nodup]
    exact ⟨_, InstrList.unlink_run hlinks, h.relinked kept_spliceOut hlinks.spliceOut⟩
  · obtain ⟨n, hn, hl⟩ := h.stands_false.mpr ⟨hid, hmem⟩
    rw [List.erase_of_not_mem hmem]
    exact ⟨l, unlink_run_of_unlinked hn hl, h⟩

theorem matches_unlink (h : l.Refines s) (id : InstrId) :
    Matches Refines l ((ListOp.unlink id).run l) ((ListOp.unlink id).plain s) := by
  simp only [ListOp.run, ListOp.plain]
  split
  · rename_i hid
    obtain ⟨l', hrun, h'⟩ := h.unlink_run hid
    exact .map_ok hrun h'
  · rename_i hid
    exact .map_trap (unlink_trap (Array.getElem?_eq_none (h.size ▸ Nat.not_lt.mp hid)))

/-- A nop leaves the sequence exactly if nops are not retained. -/
theorem convertToNop_run (h : l.Refines s) {id : InstrId} (hid : id < s.records.length) :
    ∃ l', convertToNop id l = .ok () l' ∧
      l'.Refines { s.change id ({ · with isNop := true }) with
        ids := if s.retainNops then s.ids else s.ids.erase id } := by
  have hchanged := h.changed id ({ · with isNop := true })
  have hretain : (l.changed id ({ · with isNop := true })).retainNops = s.retainNops := h.retainNops
  rw [convertToNop, Stateful.bind_of_ok (modifyInstr_run (h.size ▸ hid)), Stateful.get_bind_run, hretain]
  cases s.retainNops with
  | true => exact ⟨_, rfl, hchanged⟩
  | false =>
    have hid' : id < (s.change id ({ · with isNop := true })).records.length := by
      rwa [PlainList.change, List.length_modify]
    exact hchanged.unlink_run hid'

theorem matches_convertToNop (h : l.Refines s) (id : InstrId) :
    Matches Refines l ((ListOp.convertToNop id).run l) ((ListOp.convertToNop id).plain s) := by
  simp only [ListOp.run, ListOp.plain]
  split
  · rename_i hid
    obtain ⟨l', hrun, h'⟩ := h.convertToNop_run hid
    exact .map_ok hrun h'
  · rename_i hid
    have hrun : convertToNop id l = .error .trap l := by
      rw [convertToNop, Stateful.bind_of_error (modifyInstr_trap (h.size ▸ hid))]
    exact .map_trap hrun

theorem matches_markSafepoint (h : l.Refines s) (id : InstrId) :
    Matches Refines l ((ListOp.markSafepoint id).run l) ((ListOp.markSafepoint id).plain s) := by
  have hget : l.get id = present s.records[id]? := by rw [get_eq_present, h.records]
  simp only [ListOp.run, ListOp.plain]
  split
  · rename_i hi
    have hrun : markSafepoint id l = .error .trap l := by simp [markSafepoint, hget, hi, present]
    exact .map_trap hrun
  · rename_i i hi
    split
    · rename_i hinvalid
      have hrun : markSafepoint id l = .error .trap l := by simp [markSafepoint, hget, hi, hinvalid, require]
      exact .map_trap hrun
    · rename_i hinvalid
      have hlt : id < l.arena.size := h.size ▸ (List.getElem?_eq_some_iff.mp hi).1
      -- The call is changed first, and the marker is pushed on the list that this leaves.
      have hrun : markSafepoint id l =
          push (.marker .safepointPc i.dexPc) (l.changed id ({ · with defMask := Resource.all })) := by
        simp only [markSafepoint, Stateful.get_bind_run, hget, hi, present_some, Stateful.lift_ok_bind_run, hinvalid,
          Bool.not_false, require_true]
        exact Stateful.bind_of_ok (modifyInstr_run hlt)
      have hmap : (some <$> markSafepoint id : ListM _) l = (some <$> push (.marker .safepointPc i.dexPc) : ListM _)
          (l.changed id ({ · with defMask := Resource.all })) := by
        simp only [Functor.map, EStateM.map, hrun]
      rw [hmap]
      exact ((h.changed id _).matches_push _).of_links (h.links.changed.order_eq.trans h.links.order_eq.symm)
        links_changed

theorem matches_change (h : l.Refines s) (id : InstrId) (f : Instruction → Instruction) :
    Matches Refines l ((ListOp.change id f).run l) ((ListOp.change id f).plain s) := by
  simp only [ListOp.run, ListOp.plain]
  split
  · rename_i hid
    exact .map_ok (modifyInstr_run (h.size ▸ hid)) (h.changed id f)
  · rename_i hid
    exact .map_trap (modifyInstr_trap (h.size ▸ hid))

/-- An operation on the list does what it does to the plain list. -/
theorem matches_run (h : l.Refines s) (op : ListOp) : Matches Refines l (op.run l) (op.plain s) := by
  cases op with
  | alloc i => exact h.matches_alloc i
  | push i => exact h.matches_push i
  | append id => exact h.matches_append id
  | insertBefore anchor id => exact h.matches_insertBefore anchor id
  | insertAfter anchor id => exact h.matches_insertAfter anchor id
  | unlink id => exact h.matches_unlink id
  | convertToNop id => exact h.matches_convertToNop id
  | markSafepoint id => exact h.matches_markSafepoint id
  | markExported dexPc => exact h.matches_push _
  | change id f => exact h.matches_change id f

end Refines

/-! ### Many operations -/

/-- Operations one after the other reply alike on both lists and keep the refinement, as long as none traps. -/
theorem Refines.runAll {l : InstrList} {s : PlainList} (h : l.Refines s) (hw : s.Within) (ops : List ListOp) :
    Option.Rel (fun x y => x.1 = y.1 ∧ x.2.Refines y.2 ∧ y.2.Within) (ListOp.runAll ListOp.run ops l)
      (ListOp.runAll ListOp.plain ops s) := by
  induction ops generalizing l s with
  | nil => exact .some ⟨rfl, h, hw⟩
  | cons op ops ih =>
    -- The reply goes in front of what the rest replies.
    have hcons : ∀ {l' s'} (reply : Except Error (Option InstrId)), l'.Refines s' → s'.Within →
        Option.Rel (fun x y => x.1 = y.1 ∧ x.2.Refines y.2 ∧ y.2.Within)
          ((ListOp.runAll ListOp.run ops l').map fun (replies, t) => (reply :: replies, t))
          ((ListOp.runAll ListOp.plain ops s').map fun (replies, t) => (reply :: replies, t)) := by
      intro l' s' reply h' hw'
      have hrest := ih h' hw'
      revert hrest
      generalize ListOp.runAll ListOp.run ops l' = x
      generalize ListOp.runAll ListOp.plain ops s' = y
      rintro (⟨hreplies, hr⟩ | _)
      · exact .some ⟨congrArg (reply :: ·) hreplies, hr⟩
      · exact .none
    have hstep := h.matches_run op
    have hgrown := s.grown_plain op
    simp only [ListOp.runAll]
    revert hstep hgrown
    generalize op.run l = r
    generalize op.plain s = p
    rintro (h' | h' | _) hgrown
    · exact hcons _ h' (hgrown.2.2 hw)
    · obtain ⟨hlimit, hlength, -⟩ := hgrown
      exact hcons _ h' fun limit hl => hlength ▸ hw limit (hlimit ▸ hl)
    · exact .none

/-- An operation is refused only if the arena holds exactly as many instructions as it may. -/
theorem Refines.of_refused {l l' : InstrList} {s : PlainList} (h : l.Refines s) (hw : s.Within) {op : ListOp} {e : Error}
    (hrun : op.run l = .error (.refused e) l') : l.limit = some l.arena.size ∧ e = .arenaExhausted l.arena.size := by
  have hstep := h.matches_run op
  have hgrown := s.grown_plain op
  rw [hrun] at hstep
  generalize op.plain s = p at hstep hgrown
  cases hstep with
  | refused =>
    obtain ⟨-, -, limit, hl, hle, rfl⟩ := hgrown
    have hsize : l.arena.size = limit := h.size.trans (Nat.le_antisymm (hw limit hl) hle)
    rw [h.limit, hl, hsize]
    exact ⟨rfl, rfl⟩

/-- Whatever operations are run on an empty list, they reply what they reply on the plain list, and trap exactly when
    they trap there. The list that they lead to represents the plain one, and every operation on it does what it does to
    the plain one. An operation is refused only if the arena holds as many instructions as it may, and leaves the
    sequence and all links as they are then. -/
theorem runAll_refines_sequence (retainNops : Bool) (limit : Option Nat) (ops : List ListOp) :
    Option.Rel
      (fun x y => x.1 = y.1 ∧ x.2.Represents y.2 ∧
        ∀ op : ListOp, Matches Represents x.2 (op.run x.2) (op.plain y.2) ∧
          ∀ e l', op.run x.2 = .error (.refused e) l' →
            x.2.limit = some x.2.arena.size ∧ e = .arenaExhausted x.2.arena.size)
      (ListOp.runAll ListOp.run ops (empty retainNops limit))
      (ListOp.runAll ListOp.plain ops (.empty retainNops limit)) := by
  have hrel := (refines_empty retainNops limit).runAll (fun _ _ => Nat.zero_le _) ops
  revert hrel
  generalize ListOp.runAll ListOp.run ops (empty retainNops limit) = x
  generalize ListOp.runAll ListOp.plain ops (.empty retainNops limit) = y
  rintro (⟨hreplies, h, hw⟩ | _)
  · refine .some ⟨hreplies, h.represents, fun op => ⟨?_, fun e l' hrun => h.of_refused hw hrun⟩⟩
    exact (h.matches_run op).mono fun _ _ h' => h'.represents
  · exact .none

example :
    (ListOp.runAll ListOp.run
      [.push (.pseudo .align4 0), .alloc (.pseudo .barrier 1), .insertBefore 0 1, .markSafepoint 0, .unlink 0]
      (empty false (some 2))).map (fun x => (x.1, x.2.order)) =
      some ([.ok (some 0), .ok (some 1), .ok none, .error (.arenaExhausted 2), .ok none], [1]) := by rfl

end InstrList

end MethodAssembler
