import Mathlib.Data.List.Induction
import Mathlib.Data.List.Nodup
import MethodAssembler.InstrList
import MethodAssembler.Proofs.Stateful

/-! # Instruction lists as sequences

The links of an instruction list spell a sequence of ids: `Links l ids`. A stretch of such a sequence is a `Segment`,
which knows the id before it and the id behind it; segments are taken apart and put together, and the nodes outside a
segment do not matter to it. What the arena holds apart from links is `contents`. -/

namespace MethodAssembler.InstrList

/-! ### Segments -/

/-- The nodes of `ids` are linked to each other in this order, the first to `before` and the last to `after`. -/
def Segment (arena : Array Node) (before : Option InstrId) : List InstrId → (after : Option InstrId) → Prop
  | [], _ => True
  | id :: rest, after =>
    (∃ n, arena[id]? = some n ∧ n.prev = before ∧ n.next = rest.head?.or after ∧ n.linked = true) ∧
      Segment arena (some id) rest after

namespace Segment
variable {arena arena' : Array Node} {before after : Option InstrId} {xs ys : List InstrId}

theorem append_iff : Segment arena before (xs ++ ys) after ↔
    Segment arena before xs (ys.head?.or after) ∧ Segment arena (xs.getLast?.or before) ys after := by
  induction xs generalizing before with
  | nil => simp [Segment]
  | cons x xs ih =>
    have hlast : (x :: xs).getLast?.or before = xs.getLast?.or (some x) := by
      rw [List.getLast?_cons]
      cases xs.getLast? <;> rfl
    simp only [List.cons_append, Segment, ih, hlast, List.head?_append, Option.or_assoc, and_assoc]

theorem congr (h : Segment arena before xs after) (hx : ∀ x ∈ xs, arena'[x]? = arena[x]?) :
    Segment arena' before xs after := by
  induction xs generalizing before with
  | nil => trivial
  | cons x xs ih =>
    obtain ⟨⟨n, hn, hrest⟩, h⟩ := h
    exact ⟨⟨n, (hx x List.mem_cons_self).trans hn, hrest⟩, ih h fun y hy => hx y (List.mem_cons_of_mem _ hy)⟩

/-- A member is allocated, linked, and knows its neighbours. -/
theorem node {xs₁ xs₂ : List InstrId} {x : InstrId} (h : Segment arena before (xs₁ ++ x :: xs₂) after) :
    ∃ n, arena[x]? = some n ∧ n.prev = xs₁.getLast?.or before ∧ n.next = xs₂.head?.or after ∧ n.linked = true :=
  (append_iff.mp h).2.1

theorem lt_size (h : Segment arena before xs after) {x : InstrId} (hx : x ∈ xs) : x < arena.size := by
  obtain ⟨xs₁, xs₂, rfl⟩ := List.append_of_mem hx
  obtain ⟨n, hn, -⟩ := h.node
  exact (Array.getElem?_eq_some_iff.mp hn).1

theorem length_le (h : Segment arena before xs after) (hd : xs.Nodup) : xs.length ≤ arena.size := by
  have hsub : xs ⊆ List.range arena.size := fun x hx => List.mem_range.mpr (h.lt_size hx)
  simpa using List.Nodup.length_le_of_subset hd hsub

/-- The walk along the next links meets the members in order. -/
theorem walk_eq (h : Segment arena before xs none) {fuel : Nat} (hf : xs.length ≤ fuel) :
    walk arena fuel xs.head? = xs := by
  induction xs generalizing before fuel with
  | nil => cases fuel <;> rfl
  | cons x xs ih =>
    obtain ⟨⟨n, hn, -, hnext, -⟩, h⟩ := h
    cases fuel with
    | zero => simp at hf
    | succ fuel =>
      rw [Option.or_none] at hnext
      simp only [List.head?_cons, walk, hn, hnext]
      rw [ih h (by simpa using hf)]

end Segment

/-! ### Changing the ends of a segment -/

/-- Changes the next link of a node, if there is one. -/
def setNext (arena : Array Node) : Option InstrId → Option InstrId → Array Node
  | some id, next => arena.modify id ({ · with next })
  | none, _ => arena

/-- Changes the prev link of a node, if there is one. -/
def setPrev (arena : Array Node) : Option InstrId → Option InstrId → Array Node
  | some id, prev => arena.modify id ({ · with prev })
  | none, _ => arena

section Ends
variable {arena : Array Node} {before after link : Option InstrId} {xs : List InstrId} {id : InstrId}

theorem getElem?_setNext_of_ne {node : Option InstrId} (h : node ≠ some id) :
    (setNext arena node link)[id]? = arena[id]? := by
  cases node with
  | none => rfl
  | some b => simp [setNext, Array.getElem?_modify, show b ≠ id from fun hb => h (hb ▸ rfl)]

theorem getElem?_setPrev_of_ne {node : Option InstrId} (h : node ≠ some id) :
    (setPrev arena node link)[id]? = arena[id]? := by
  cases node with
  | none => rfl
  | some b => simp [setPrev, Array.getElem?_modify, show b ≠ id from fun hb => h (hb ▸ rfl)]

theorem Segment.relinkLast (h : Segment arena before xs after) (link : Option InstrId) (hd : xs.Nodup) :
    Segment (setNext arena xs.getLast? link) before xs link := by
  cases xs using List.reverseRecOn with
  | nil => trivial
  | append_singleton xs b _ =>
    obtain ⟨h₁, ⟨n, hn, hprev, -, hlinked⟩, -⟩ := append_iff.mp h
    have hb : b ∉ xs := fun hb => (List.disjoint_of_nodup_append hd) hb (List.mem_singleton_self b)
    refine append_iff.mpr ⟨h₁.congr fun x hx => ?_, ⟨{ n with next := link }, ?_, hprev, ?_, hlinked⟩, trivial⟩
    · rw [List.getLast?_concat]
      exact getElem?_setNext_of_ne fun hx' => hb (Option.some.inj hx' ▸ hx)
    · simp [setNext, Array.getElem?_modify, hn]
    · simp

theorem Segment.relinkFirst (h : Segment arena before xs after) (link : Option InstrId) (hd : xs.Nodup) :
    Segment (setPrev arena xs.head? link) link xs after := by
  cases xs with
  | nil => trivial
  | cons a xs =>
    obtain ⟨⟨n, hn, -, hnext, hlinked⟩, h⟩ := h
    refine ⟨⟨{ n with prev := link }, ?_, rfl, hnext, hlinked⟩, h.congr fun x hx => ?_⟩
    · simp [setPrev, Array.getElem?_modify, hn]
    · exact getElem?_setPrev_of_ne fun hx' => (List.nodup_cons.mp hd).1 (Option.some.inj hx' ▸ hx)

end Ends

/-! ### Linked sequences -/

/-- The instructions of the arena, linked or not. -/
def contents (l : InstrList) : List Instruction := l.arena.toList.map (·.instr)

/-- The list links exactly `ids`, in this order. -/
structure Links (l : InstrList) (ids : List InstrId) : Prop where
  nodup : ids.Nodup
  segment : Segment l.arena none ids none
  first : l.first = ids.head?
  last : l.last = ids.getLast?
  length : l.length = ids.length
  linked : ∀ {id n}, l.arena[id]? = some n → n.linked = true → id ∈ ids

theorem contents_length (l : InstrList) : l.contents.length = l.arena.size := by
  simp [contents]

theorem contents_getElem? (l : InstrList) (id : InstrId) : l.contents[id]? = l.arena[id]?.map (·.instr) := by
  simp [contents]

theorem get_eq_present (l : InstrList) (id : InstrId) : l.get id = present l.contents[id]? := by
  rw [contents_getElem?, get, node]
  cases l.arena[id]? <;> rfl

theorem get_eq_ok {l : InstrList} {id : InstrId} {i : Instruction} : l.get id = .ok i ↔ l.contents[id]? = some i := by
  rw [get_eq_present, present_eq_ok]

theorem getElem?_contents_of_lt {l : InstrList} {id : InstrId} (h : id < l.arena.size) :
    ∃ i, l.contents[id]? = some i :=
  ⟨_, List.getElem?_eq_getElem (by rwa [l.contents_length])⟩

namespace Links
variable {l : InstrList} {ids : List InstrId}

theorem lt_size (h : l.Links ids) {id : InstrId} (hid : id ∈ ids) : id < l.arena.size := h.segment.lt_size hid

theorem length_le (h : l.Links ids) : ids.length ≤ l.arena.size := h.segment.length_le h.nodup

theorem order_eq (h : l.Links ids) : l.order = ids := by
  rw [order, h.first]
  exact h.segment.walk_eq h.length_le

theorem linked_iff (h : l.Links ids) {id : InstrId} {n : Node} (hn : l.arena[id]? = some n) :
    n.linked = true ↔ id ∈ ids := by
  refine ⟨h.linked hn, fun hid => ?_⟩
  obtain ⟨before, after, rfl⟩ := List.append_of_mem hid
  obtain ⟨n', hn', -, -, hl⟩ := h.segment.node
  rw [hn] at hn'
  cases hn'
  exact hl

theorem not_mem (h : l.Links ids) {id : InstrId} {n : Node} (hn : l.arena[id]? = some n) (hl : n.linked = false) :
    id ∉ ids := by
  rw [← h.linked_iff hn, hl]
  exact Bool.false_ne_true

/-- The linked instructions with their ids are read off the contents. -/
theorem entries_eq (h : l.Links ids) : l.entries = ids.filterMap fun id => l.contents[id]?.map (id, ·) := by
  simp only [entries, h.order_eq, contents_getElem?, Option.map_map, Function.comp_def]

end Links

theorem links_empty (retainNops : Bool) (limit : Option Nat) : (empty retainNops limit).Links [] where
  nodup := List.nodup_nil
  segment := trivial
  first := rfl
  last := rfl
  length := rfl
  linked := fun hn _ => by simp [empty] at hn

end MethodAssembler.InstrList
