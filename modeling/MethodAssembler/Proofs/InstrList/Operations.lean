import MethodAssembler.Proofs.InstrList.Sequence
import MethodAssembler.Proofs.Stateful

/-! # What the operations of an instruction list do to its sequence

Linking an instruction splices its id into the sequence and unlinking takes it out; both leave the contents of the arena
as they are. Allocating adds to the contents, changing an instruction changes them at one place, and neither touches
the sequence. What asks for too much traps and leaves the list as it was. -/

namespace MethodAssembler.InstrList

theorem modify_comm {α : Type} {xs : Array α} {i j : Nat} (h : i ≠ j) (f g : α → α) :
    (xs.modify i f).modify j g = (xs.modify j g).modify i f := by
  apply Array.ext_getElem?
  intro k
  simp only [Array.getElem?_modify]
  by_cases hi : i = k
  · subst hi
    simp [h.symm]
  · simp [hi]

/-! ### Splicing -/

section Splice
variable {arena : Array Node} {before after : List InstrId} {id : InstrId} {n : Node}

/-- The links around a place change, and the node of `id` changes by `f`. -/
def splice (arena : Array Node) (before after : List InstrId) (last first : Option InstrId) (id : InstrId)
    (f : Node → Node) : Array Node :=
  (setPrev (setNext arena before.getLast? last) after.head? first).modify id f

theorem ne_of_getLast? {xs : List InstrId} {x : InstrId} (h : x ∉ xs) : xs.getLast? ≠ some x := fun hx =>
  h (List.mem_of_getLast? hx)

theorem ne_of_head? {xs : List InstrId} {x : InstrId} (h : x ∉ xs) : xs.head? ≠ some x := fun hx =>
  h (List.mem_of_mem_head? hx)

section Sides
variable {last first : Option InstrId} {f : Node → Node} {p q : Option InstrId}

/-- The nodes before the place are linked to it by `last`. -/
theorem Segment.splice_before (h : Segment arena p before q) (hd : (before ++ id :: after).Nodup) :
    Segment (splice arena before after last first id f) p before last := by
  obtain ⟨hb, -, hdis⟩ := List.nodup_append'.mp hd
  refine (h.relinkLast last hb).congr fun x hx => ?_
  have hxi : id ≠ x := fun h => hdis hx (h ▸ List.mem_cons_self)
  have hxa : x ∉ after := fun h => hdis hx (List.mem_cons_of_mem _ h)
  rw [splice, Array.getElem?_modify, if_neg hxi, getElem?_setPrev_of_ne (ne_of_head? hxa)]

/-- The nodes behind the place are linked to it by `first`. -/
theorem Segment.splice_after (h : Segment arena p after q) (hd : (before ++ id :: after).Nodup) :
    Segment (splice arena before after last first id f) first after q := by
  obtain ⟨-, hia, hdis⟩ := List.nodup_append'.mp hd
  obtain ⟨hi, ha⟩ := List.nodup_cons.mp hia
  have h' : Segment (setNext arena before.getLast? last) p after q := h.congr fun x hx =>
    getElem?_setNext_of_ne (ne_of_getLast? fun h => hdis h (List.mem_cons_of_mem _ hx))
  refine (h'.relinkFirst first ha).congr fun x hx => ?_
  have hxi : id ≠ x := fun h => hi (h ▸ hx)
  rw [splice, Array.getElem?_modify, if_neg hxi]

end Sides

theorem Segment.spliceIn (h : Segment arena none (before ++ after) none) (hd : (before ++ id :: after).Nodup)
    (hn : arena[id]? = some n) :
    Segment (splice arena before after (some id) (some id) id
      fun n => { n with prev := before.getLast?, next := after.head?, linked := true }) none (before ++ id :: after)
      none := by
  obtain ⟨h₁, h₂⟩ := append_iff.mp h
  obtain ⟨-, hia, hdis⟩ := List.nodup_append'.mp hd
  have hib : id ∉ before := fun h => hdis h List.mem_cons_self
  refine append_iff.mpr ⟨h₁.splice_before hd, ⟨{ n with prev := before.getLast?, next := after.head?, linked := true },
    ?_, (Option.or_none).symm, (Option.or_none).symm, rfl⟩, h₂.splice_after hd⟩
  rw [splice, Array.getElem?_modify, if_pos rfl, getElem?_setPrev_of_ne (ne_of_head? (List.nodup_cons.mp hia).1),
    getElem?_setNext_of_ne (ne_of_getLast? hib), hn]
  rfl

theorem Segment.spliceOut (h : Segment arena none (before ++ id :: after) none) (hd : (before ++ id :: after).Nodup)
    (f : Node → Node) :
    Segment (splice arena before after after.head? before.getLast? id f) none (before ++ after) none := by
  obtain ⟨h₁, -, h₂⟩ := append_iff.mp h
  simp only [append_iff, Option.or_none]
  exact ⟨h₁.splice_before hd, h₂.splice_after hd⟩

/-- What splicing leaves alone: all of a node but its links, unless `f` changes it. -/
theorem splice_map {α : Type} {last first : Option InstrId} {f : Node → Node} (g : Node → α)
    (hprev : ∀ (n : Node) prev, g { n with prev } = g n) (hnext : ∀ (n : Node) next, g { n with next } = g n)
    (x : InstrId) (hf : x = id → ∀ n, g (f n) = g n) :
    (splice arena before after last first id f)[x]?.map g = arena[x]?.map g := by
  have hsetNext : ∀ (a : Array Node) node link, (setNext a node link)[x]?.map g = a[x]?.map g := by
    intro a node link
    cases node with
    | none => rfl
    | some b =>
      simp only [setNext, Array.getElem?_modify]
      split <;> simp [Function.comp_def, hnext]
  have hsetPrev : ∀ (a : Array Node) node link, (setPrev a node link)[x]?.map g = a[x]?.map g := by
    intro a node link
    cases node with
    | none => rfl
    | some b =>
      simp only [setPrev, Array.getElem?_modify]
      split <;> simp [Function.comp_def, hprev]
  rw [splice, Array.getElem?_modify]
  split
  · rename_i hx
    rw [Option.map_map, show g ∘ f = g from funext (hf hx.symm), hsetPrev, hsetNext]
  · rw [hsetPrev, hsetNext]

end Splice

/-! ### Linking and unlinking -/

/-- The list after `id` was linked between two stretches. -/
def spliceIn (l : InstrList) (before after : List InstrId) (id : InstrId) : InstrList :=
  { l with
    arena := splice l.arena before after (some id) (some id) id
      fun n => { n with prev := before.getLast?, next := after.head?, linked := true }
    first := (before ++ id :: after).head?
    last := (before ++ id :: after).getLast?
    length := l.length + 1 }

/-- The list after `id` was taken out from between two stretches. -/
def spliceOut (l : InstrList) (before after : List InstrId) (id : InstrId) : InstrList :=
  { l with
    arena := splice l.arena before after after.head? before.getLast? id
      fun n => { n with prev := none, next := none, linked := false }
    first := (before ++ after).head?
    last := (before ++ after).getLast?
    length := l.length - 1 }

/-- Relinking leaves the instructions and the settings of a list alone. -/
structure Kept (l l' : InstrList) : Prop where
  contents : l'.contents = l.contents
  retainNops : l'.retainNops = l.retainNops
  limit : l'.limit = l.limit

theorem Kept.size {l l' : InstrList} (h : Kept l l') : l'.arena.size = l.arena.size := by
  rw [← contents_length, ← contents_length, h.contents]

theorem contents_eq_of_map {l l' : InstrList}
    (h : ∀ x : InstrId, l'.arena[x]?.map (·.instr) = l.arena[x]?.map (·.instr)) : l'.contents = l.contents := by
  apply List.ext_getElem?
  intro x
  rw [contents_getElem?, contents_getElem?, h]

section Linking
variable {l : InstrList} {before after : List InstrId} {id : InstrId} {n : Node}

theorem kept_spliceIn : Kept l (l.spliceIn before after id) where
  contents := contents_eq_of_map fun x => splice_map (·.instr) (fun _ _ => rfl) (fun _ _ => rfl) x fun _ _ => rfl
  retainNops := rfl
  limit := rfl

theorem kept_spliceOut : Kept l (l.spliceOut before after id) where
  contents := contents_eq_of_map fun x => splice_map (·.instr) (fun _ _ => rfl) (fun _ _ => rfl) x fun _ _ => rfl
  retainNops := rfl
  limit := rfl

/-- Splicing changes the flag of the spliced node only. -/
theorem Links.of_splice {ids : List InstrId} {last first : Option InstrId} {f : Node → Node} {x : InstrId} {m : Node}
    (h : l.Links ids) (hx : x ≠ id) (hm : (splice l.arena before after last first id f)[x]? = some m)
    (hl : m.linked = true) : x ∈ ids := by
  have hmap : (splice l.arena before after last first id f)[x]?.map (·.linked) = l.arena[x]?.map (·.linked) :=
    splice_map (·.linked) (fun _ _ => rfl) (fun _ _ => rfl) x fun h => absurd h hx
  rw [hm, Option.map_some, hl] at hmap
  obtain ⟨m', hm', hl'⟩ := Option.map_eq_some_iff.mp hmap.symm
  exact h.linked hm' hl'

theorem Links.spliceIn (h : l.Links (before ++ after)) (hn : l.arena[id]? = some n) (hl : n.linked = false) :
    (l.spliceIn before after id).Links (before ++ id :: after) := by
  have hid : id ∉ before ++ after := h.not_mem hn hl
  have hd : (before ++ id :: after).Nodup := List.nodup_middle.mpr (List.nodup_cons.mpr ⟨hid, h.nodup⟩)
  refine ⟨hd, h.segment.spliceIn hd hn, rfl, rfl, ?_, fun {x m} hm hx => ?_⟩
  · simp only [InstrList.spliceIn, h.length, List.length_append, List.length_cons]
    omega
  · by_cases hxi : x = id
    · simp [hxi]
    · have := h.of_splice hxi hm hx
      simp only [List.mem_append, List.mem_cons] at this ⊢
      tauto

theorem Links.spliceOut (h : l.Links (before ++ id :: after)) :
    (l.spliceOut before after id).Links (before ++ after) := by
  refine ⟨(List.nodup_cons.mp (List.nodup_middle.mp h.nodup)).2, h.segment.spliceOut h.nodup
    fun n => { n with prev := none, next := none, linked := false }, rfl, rfl, ?_, fun {x m} hm hx => ?_⟩
  · simp only [InstrList.spliceOut, h.length, List.length_append, List.length_cons]
    omega
  · by_cases hxi : x = id
    · subst hxi
      simp only [InstrList.spliceOut, splice, Array.getElem?_modify, if_true] at hm
      obtain ⟨m', -, rfl⟩ := Option.map_eq_some_iff.mp hm
      cases hx
    · have := h.of_splice hxi hm hx
      simp only [List.mem_append, List.mem_cons] at this ⊢
      tauto

end Linking

/-! ### The operations -/

section Operations
variable {l : InstrList} {ids before after : List InstrId} {id anchor : InstrId} {n : Node}

theorem modifyNode_run {f : Node → Node} (h : id < l.arena.size) :
    modifyNode id f l = .ok () { l with arena := l.arena.modify id f } := if_pos h

theorem lt_of_getElem? (h : l.arena[id]? = some n) : id < l.arena.size := (Array.getElem?_eq_some_iff.mp h).1

theorem requireLinked_run (h : l.arena[id]? = some n) : requireLinked id n.linked l = .ok () l := by
  simp [requireLinked, node, h]

theorem modifyNode_bind_run {α : Type} {f : Node → Node} {g : Unit → ListM α} (h : id < l.arena.size) :
    (modifyNode id f >>= g) l = g () { l with arena := l.arena.modify id f } :=
  Stateful.bind_of_ok (modifyNode_run h)

theorem append_run (h : l.Links ids) (hn : l.arena[id]? = some n) (hl : n.linked = false) :
    append id l = .ok () (l.spliceIn ids [] id) := by
  have hlt := lt_of_getElem? hn
  rw [append, Stateful.bind_of_ok (hl ▸ requireLinked_run hn)]
  cases ids using List.reverseRecOn with
  | nil =>
    have hfirst : l.first = none := h.first
    have hlast : l.last = none := h.last
    simp [hfirst, hlast, modifyNode_bind_run, hlt, spliceIn, splice, setNext, setPrev]
  | append_singleton xs b _ =>
    have hlast : l.last = some b := by simpa using h.last
    have hb : b < l.arena.size := h.lt_size (by simp)
    have hfirst := h.first
    simp [hlast, modifyNode_bind_run, hlt, hb, spliceIn, splice, setNext, setPrev]
    simpa using hfirst

theorem insertBefore_run (h : l.Links (before ++ anchor :: after)) (hn : l.arena[id]? = some n)
    (hl : n.linked = false) : insertBefore anchor id l = .ok () (l.spliceIn before (anchor :: after) id) := by
  have hlt := lt_of_getElem? hn
  obtain ⟨a, ha, hprev, -, hla⟩ := h.segment.node
  have hne : id ≠ anchor := fun h' => h.not_mem hn hl (by simp [h'])
  have halt := lt_of_getElem? ha
  rw [insertBefore, Stateful.bind_of_ok (hla ▸ requireLinked_run ha), Stateful.bind_of_ok (hl ▸ requireLinked_run hn)]
  simp only [Stateful.get_bind_run, node, ha, present_some, Stateful.lift_ok_bind_run, hprev, Option.or_none]
  have hfirst := h.first
  have hlast := h.last
  cases before using List.reverseRecOn with
  | nil =>
    simp only [List.getLast?_nil, Stateful.modify_bind_run, modifyNode_bind_run, hlt, halt, Array.size_modify,
      Stateful.modify_run]
    simp [spliceIn, splice, setNext, setPrev, modify_comm hne, hlast]
  | append_singleton xs b _ =>
    have hb : b < l.arena.size := h.lt_size (by simp)
    simp only [List.getLast?_concat, modifyNode_bind_run, hlt, halt, hb, Array.size_modify, Stateful.modify_run]
    simp [spliceIn, splice, setNext, setPrev, modify_comm hne, hlast, hfirst]

theorem insertAfter_run (h : l.Links (before ++ anchor :: after)) (hn : l.arena[id]? = some n)
    (hl : n.linked = false) : insertAfter anchor id l = .ok () (l.spliceIn (before ++ [anchor]) after id) := by
  have hlt := lt_of_getElem? hn
  obtain ⟨a, ha, -, hnext, hla⟩ := h.segment.node
  have hne : id ≠ anchor := fun h' => h.not_mem hn hl (by simp [h'])
  have halt := lt_of_getElem? ha
  rw [insertAfter, Stateful.bind_of_ok (hla ▸ requireLinked_run ha), Stateful.bind_of_ok (hl ▸ requireLinked_run hn)]
  simp only [Stateful.get_bind_run, node, ha, present_some, Stateful.lift_ok_bind_run, hnext, Option.or_none]
  have hfirst := h.first
  have hlast := h.last
  cases after with
  | nil =>
    simp only [List.head?_nil, Stateful.modify_bind_run, modifyNode_bind_run, hlt, halt, Array.size_modify,
      Stateful.modify_run]
    simp [spliceIn, splice, setNext, setPrev, modify_comm hne, hfirst]
  | cons b xs =>
    have hb : b < l.arena.size := h.lt_size (by simp)
    -- The neighbour is not the anchor, so the changes of the two commute.
    have hba : b ≠ anchor := fun h' => by
      have := (List.nodup_append'.mp h.nodup).2.1
      simp [h'] at this
    simp only [List.head?_cons, modifyNode_bind_run, hlt, halt, hb, Array.size_modify, Stateful.modify_run]
    simp [spliceIn, splice, setNext, setPrev, modify_comm hne, modify_comm hba, hlast, hfirst]

theorem unlink_run (h : l.Links (before ++ id :: after)) :
    unlink id l = .ok () (l.spliceOut before after id) := by
  obtain ⟨n, hn, hprev, hnext, hl⟩ := h.segment.node
  have hlt := lt_of_getElem? hn
  have hlength : (l.length != 0) = true := by simp [h.length]
  have hfirst := h.first
  have hlast := h.last
  simp only [unlink, Stateful.get_bind_run, node, hn, present_some, Stateful.lift_ok_bind_run, hl, if_true, hprev,
    hnext, Option.or_none]
  -- A neighbour on either side is linked to the other one, and where there is none the end of the list moves.
  cases before using List.reverseRecOn with
  | nil =>
    cases after with
    | nil =>
      simp at hfirst hlast
      simp [hfirst, hlast, modifyNode_bind_run, hlt, hlength, spliceOut, splice, setNext, setPrev]
    | cons b xs =>
      have hb : b < l.arena.size := h.lt_size (by simp)
      simp at hfirst hlast
      simp [hfirst, hlast, modifyNode_bind_run, hlt, hb, hlength, spliceOut, splice, setNext, setPrev]
  | append_singleton ys a _ =>
    have ha : a < l.arena.size := h.lt_size (by simp)
    cases after with
    | nil =>
      simp at hfirst hlast
      simp [hfirst, hlast, modifyNode_bind_run, hlt, ha, hlength, spliceOut, splice, setNext, setPrev]
    | cons b xs =>
      have hb : b < l.arena.size := h.lt_size (by simp)
      simp at hfirst hlast
      simp [hfirst, hlast, modifyNode_bind_run, hlt, ha, hb, hlength, spliceOut, splice, setNext, setPrev]

theorem unlink_run_of_unlinked (hn : l.arena[id]? = some n) (hl : n.linked = false) : unlink id l = .ok () l := by
  simp [unlink, node, hn, hl]

/-- Whether the arena has room for `count` more instructions. -/
def HasRoom (l : InstrList) (count : Nat) : Prop := ∀ limit, l.limit = some limit → l.arena.size + count ≤ limit

/-- The list with one more instruction in its arena. -/
def allocated (l : InstrList) (i : Instruction) : InstrList := { l with arena := l.arena.push { instr := i } }

theorem alloc_run (i : Instruction) (h : l.HasRoom 1) : alloc i l = .ok l.arena.size (l.allocated i) := by
  simp only [alloc, Stateful.get_bind_run]
  cases hl : l.limit with
  | none => rfl
  | some limit =>
    have := h limit hl
    simp only [show ¬limit ≤ l.arena.size by omega, if_false]
    rfl

theorem alloc_exhausted (i : Instruction) {limit : Nat} (hl : l.limit = some limit) (h : limit ≤ l.arena.size) :
    alloc i l = .error (.refused (.arenaExhausted limit)) l := by
  simp [alloc, hl, h]

/-- One more instruction in an arena that holds `count` of them: their new number, unless the limit is reached. -/
def reserve (limit : Option Nat) (count : Nat) : Checked Nat :=
  match limit with
  | some limit => if limit ≤ count then .error (.refused (.arenaExhausted limit)) else .ok (count + 1)
  | none => .ok (count + 1)

/-- Either the limit is reached, or it leaves room for one more. -/
theorem reserve_cases (limit : Option Nat) (count : Nat) :
    (∃ most, limit = some most ∧ most ≤ count ∧ reserve limit count = .error (.refused (.arenaExhausted most))) ∨
      (∀ most, limit = some most → count + 1 ≤ most) ∧ reserve limit count = .ok (count + 1) := by
  cases limit with
  | none => exact .inr ⟨by simp, rfl⟩
  | some most =>
    rcases Nat.lt_or_ge count most with hlt | hge
    · refine .inr ⟨fun _ h => Option.some.inj h ▸ hlt, if_neg (Nat.not_le.mpr hlt)⟩
    · exact .inl ⟨most, rfl, hge, if_pos hge⟩

theorem alloc_follows (i : Instruction) :
    Stateful.Follows (reserve l.limit l.arena.size)
      (fun count id l' => count = l.arena.size + 1 ∧ id = l.arena.size ∧ l' = l.allocated i) (alloc i l) := by
  rcases reserve_cases l.limit l.arena.size with ⟨limit, hl, hle, hr⟩ | ⟨hroom, hr⟩
  · exact .of_error (alloc_exhausted i hl hle) hr
  · exact .of_ok (alloc_run i hroom) hr ⟨rfl, rfl, rfl⟩

theorem size_allocated (i : Instruction) : (l.allocated i).arena.size = l.arena.size + 1 := Array.size_push _

theorem contents_allocated (i : Instruction) : (l.allocated i).contents = l.contents ++ [i] := by
  simp [contents, allocated]

theorem getElem?_allocated (i : Instruction) : (l.allocated i).arena[l.arena.size]? = some { instr := i } := by
  simp [allocated]

theorem getElem?_allocated_of_lt (i : Instruction) (h : id < l.arena.size) :
    (l.allocated i).arena[id]? = l.arena[id]? := by
  simp only [allocated, Array.getElem?_push, if_neg (Nat.ne_of_lt h)]

theorem Links.allocated (h : l.Links ids) (i : Instruction) : (l.allocated i).Links ids where
  nodup := h.nodup
  segment := h.segment.congr fun x hx => getElem?_allocated_of_lt i (h.lt_size hx)
  first := h.first
  last := h.last
  length := h.length
  linked := fun {x n} hn hl => by
    by_cases hx : x = l.arena.size
    · subst hx
      rw [getElem?_allocated] at hn
      cases hn
      cases hl
    · refine h.linked ?_ hl
      simpa only [InstrList.allocated, Array.getElem?_push, if_neg hx] using hn

/-- An instruction that was just allocated can be linked behind any that is in the list. -/
theorem Links.insertAllocated (h : l.Links (before ++ anchor :: after)) (i : Instruction) :
    ∃ l', insertAfter anchor l.arena.size (l.allocated i) = .ok () l' ∧
      l'.Links (before ++ anchor :: l.arena.size :: after) ∧ Kept (l.allocated i) l' := by
  have hlinks := h.allocated i
  have hsplit : (l.allocated i).Links ((before ++ [anchor]) ++ after) := by simpa using hlinks
  have hspliced := hsplit.spliceIn (getElem?_allocated i) rfl
  exact ⟨_, insertAfter_run hlinks (getElem?_allocated i) rfl, by simpa using hspliced, kept_spliceIn⟩

/-- The list with one more instruction at its end. -/
def pushed (l : InstrList) (ids : List InstrId) (i : Instruction) : InstrList :=
  (l.allocated i).spliceIn ids [] l.arena.size

theorem push_run (h : l.Links ids) (i : Instruction) (hr : l.HasRoom 1) :
    push i l = .ok l.arena.size (l.pushed ids i) := by
  rw [push, Stateful.bind_of_ok (alloc_run i hr),
    Stateful.bind_of_ok (append_run (h.allocated i) (getElem?_allocated i) rfl)]
  rfl

theorem Links.pushed (h : l.Links ids) (i : Instruction) : (l.pushed ids i).Links (ids ++ [l.arena.size]) :=
  Links.spliceIn (by rw [List.append_nil]; exact h.allocated i) (getElem?_allocated i) rfl

theorem contents_pushed (i : Instruction) : (l.pushed ids i).contents = l.contents ++ [i] :=
  kept_spliceIn.contents.trans (contents_allocated i)

theorem push_exhausted (i : Instruction) {limit : Nat} (hl : l.limit = some limit) (h : limit ≤ l.arena.size) :
    push i l = .error (.refused (.arenaExhausted limit)) l := by
  rw [push, Stateful.bind_of_error (alloc_exhausted i hl h)]

theorem push_follows (h : l.Links ids) (i : Instruction) :
    Stateful.Follows (reserve l.limit l.arena.size)
      (fun count id l' => count = l.arena.size + 1 ∧ id = l.arena.size ∧ l' = l.pushed ids i) (push i l) := by
  refine (alloc_follows i).bind_ok ?_
  rintro count _ _ ⟨rfl, rfl, rfl⟩
  rw [Stateful.bind_of_ok (append_run (h.allocated i) (getElem?_allocated i) rfl)]
  exact ⟨_, _, rfl, rfl, rfl, rfl⟩

/-- The list with one instruction changed. -/
def changed (l : InstrList) (id : InstrId) (f : Instruction → Instruction) : InstrList :=
  { l with arena := l.arena.modify id fun n => { n with instr := f n.instr } }

theorem modifyInstr_run {f : Instruction → Instruction} (h : id < l.arena.size) :
    modifyInstr id f l = .ok () (l.changed id f) := modifyNode_run h

theorem size_changed {f : Instruction → Instruction} : (l.changed id f).arena.size = l.arena.size := Array.size_modify

theorem modify_length {α : Type} (done rest : List α) (a : α) (f : α → α) :
    (done ++ a :: rest).modify done.length f = done ++ f a :: rest := by
  induction done with
  | nil => rfl
  | cons b done ih => simp [ih]

theorem contents_changed {f : Instruction → Instruction} : (l.changed id f).contents = l.contents.modify id f := by
  apply List.ext_getElem?
  intro x
  simp only [contents_getElem?, changed, Array.getElem?_modify, List.getElem?_modify]
  split <;> simp [Function.comp_def]

theorem getElem?_changed_self {f : Instruction → Instruction} :
    (l.changed id f).contents[id]? = l.contents[id]?.map f := by
  simp [contents_changed]

theorem getElem?_changed_of_ne {f : Instruction → Instruction} {x : InstrId} (h : x ≠ id) :
    (l.changed id f).contents[x]? = l.contents[x]? := by
  simp [contents_changed, Ne.symm h]

theorem Segment.changed {f : Instruction → Instruction} {xs : List InstrId} {p q : Option InstrId}
    (h : Segment l.arena p xs q) : Segment (l.changed id f).arena p xs q := by
  induction xs generalizing p with
  | nil => trivial
  | cons x xs ih =>
    obtain ⟨⟨n, hn, hlinks⟩, h⟩ := h
    refine ⟨?_, ih h⟩
    by_cases hx : id = x
    · exact ⟨{ n with instr := f n.instr }, by simp [InstrList.changed, Array.getElem?_modify, hx, hn], hlinks⟩
    · exact ⟨n, by simp [InstrList.changed, Array.getElem?_modify, hx, hn], hlinks⟩

theorem Links.changed (h : l.Links ids) {f : Instruction → Instruction} : (l.changed id f).Links ids where
  nodup := h.nodup
  segment := h.segment.changed
  first := h.first
  last := h.last
  length := h.length
  linked := fun {x n} hn hl => by
    simp only [InstrList.changed, Array.getElem?_modify] at hn
    split at hn
    · obtain ⟨m, hm, rfl⟩ := Option.map_eq_some_iff.mp hn
      exact h.linked hm hl
    · exact h.linked hn hl

/-- What a list is after its last instruction was turned into a nop. -/
def nopped (l : InstrList) (ids : List InstrId) (id : InstrId) : InstrList :=
  let l' := l.changed id ({ · with isNop := true })
  if l.retainNops then l' else l'.spliceOut ids [] id

theorem convertToNop_run (h : l.Links (ids ++ [id])) : convertToNop id l = .ok () (l.nopped ids id) := by
  have hlt : id < l.arena.size := h.lt_size (List.mem_append_right ids List.mem_cons_self)
  rw [convertToNop, Stateful.bind_of_ok (modifyInstr_run hlt), Stateful.get_bind_run, nopped]
  cases hr : l.retainNops with
  | true => simp [InstrList.changed, hr]
  | false =>
    rw [show (l.changed id ({ · with isNop := true })).retainNops = false from hr]
    exact unlink_run h.changed

theorem Links.nopped (h : l.Links (ids ++ [id])) :
    (l.nopped ids id).Links (ids ++ if l.retainNops then [id] else []) := by
  rw [InstrList.nopped]
  split
  · exact h.changed
  · exact h.changed.spliceOut

theorem contents_nopped : (l.nopped ids id).contents = l.contents.modify id ({ · with isNop := true }) := by
  rw [nopped]
  split
  · exact contents_changed
  · exact kept_spliceOut.contents.trans contents_changed

theorem limit_nopped : (l.nopped ids id).limit = l.limit := by
  rw [nopped]
  split <;> rfl

theorem retainNops_nopped : (l.nopped ids id).retainNops = l.retainNops := by
  rw [nopped]
  split <;> rfl

end Operations

/-! ### Traps -/

section Traps
variable {l : InstrList} {id anchor : InstrId}

/-- An instruction that is allocated and in the list, or not in it, as asked for. -/
def Stands (l : InstrList) (id : InstrId) (linked : Bool) : Prop := ∃ n, l.arena[id]? = some n ∧ n.linked = linked

theorem requireLinked_trap {linked : Bool} (h : ¬l.Stands id linked) :
    requireLinked id linked l = .error .trap l := by
  cases hn : l.arena[id]? with
  | none => simp [requireLinked, node, hn, present]
  | some n =>
    have hl : n.linked ≠ linked := fun hl => h ⟨n, hn, hl⟩
    simp [requireLinked, node, hn, hl, require]

theorem append_trap (h : ¬l.Stands id false) : append id l = .error .trap l := by
  rw [append, Stateful.bind_of_error (requireLinked_trap h)]

theorem insertBefore_trap (h : ¬(l.Stands anchor true ∧ l.Stands id false)) :
    insertBefore anchor id l = .error .trap l := by
  by_cases ha : l.Stands anchor true
  · obtain ⟨n, hn, hl⟩ := ha
    rw [insertBefore, Stateful.bind_of_ok (hl ▸ requireLinked_run hn),
      Stateful.bind_of_error (requireLinked_trap fun hid => h ⟨⟨n, hn, hl⟩, hid⟩)]
  · rw [insertBefore, Stateful.bind_of_error (requireLinked_trap ha)]

theorem insertAfter_trap (h : ¬(l.Stands anchor true ∧ l.Stands id false)) :
    insertAfter anchor id l = .error .trap l := by
  by_cases ha : l.Stands anchor true
  · obtain ⟨n, hn, hl⟩ := ha
    rw [insertAfter, Stateful.bind_of_ok (hl ▸ requireLinked_run hn),
      Stateful.bind_of_error (requireLinked_trap fun hid => h ⟨⟨n, hn, hl⟩, hid⟩)]
  · rw [insertAfter, Stateful.bind_of_error (requireLinked_trap ha)]

theorem unlink_trap (h : l.arena[id]? = none) : unlink id l = .error .trap l := by
  simp [unlink, node, h, present]

theorem modifyInstr_trap {f : Instruction → Instruction} (h : ¬id < l.arena.size) :
    modifyInstr id f l = .error .trap l := if_neg h

end Traps

end MethodAssembler.InstrList
