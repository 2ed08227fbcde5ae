import Mathlib.Data.List.Sort
import MethodAssembler.SortedWords

/-! # Sorted words

Sorting is insertion sort, so it forgets the order of the words. A set of words ascends strictly, so it is told by its
members: neither the order in which they came nor how often one came shows in it. -/

namespace MethodAssembler.SortedWords
variable {w x : UInt32} {words words' : List UInt32}

/-! ### Sorting -/

theorem insert_eq (w : UInt32) (words : List UInt32) : insert w words = words.orderedInsert (· ≤ ·) w := by
  induction words with
  | nil => rfl
  | cons x words ih => rw [insert, List.orderedInsert_cons, ih]

theorem sort_eq (words : List UInt32) : sort words = words.insertionSort (· ≤ ·) := by
  induction words with
  | nil => rfl
  | cons w words ih => rw [List.insertionSort_cons, ← ih, ← insert_eq, sort, sort, List.foldr_cons]

theorem perm_sort (words : List UInt32) : (sort words).Perm words := by
  rw [sort_eq]
  exact List.perm_insertionSort _ _

theorem pairwise_sort (words : List UInt32) : (sort words).Pairwise (· ≤ ·) := by
  rw [sort_eq]
  exact List.pairwise_insertionSort _ _

theorem sort_of_perm (h : words.Perm words') : sort words = sort words' :=
  List.Perm.eq_of_pairwise (fun _ _ _ _ => UInt32.le_antisymm) (pairwise_sort words) (pairwise_sort words')
    ((perm_sort words).trans (h.trans (perm_sort words').symm))

/-! ### Sets -/

theorem mem_insertNew : x ∈ insertNew w words ↔ x = w ∨ x ∈ words := by
  induction words with
  | nil => simp [insertNew]
  | cons y words ih =>
    rw [insertNew]
    split
    · exact List.mem_cons
    · split
      · rename_i heq
        rw [heq, List.mem_cons, ← or_assoc, or_self]
      · rw [List.mem_cons, ih, List.mem_cons, or_left_comm]

theorem pairwise_insertNew (h : words.Pairwise (· < ·)) : (insertNew w words).Pairwise (· < ·) := by
  induction words with
  | nil => exact List.pairwise_singleton _ _
  | cons y words ih =>
    obtain ⟨hhead, htail⟩ := List.pairwise_cons.mp h
    rw [insertNew]
    split
    · rename_i hlt
      refine List.pairwise_cons.mpr ⟨fun x hx => ?_, h⟩
      rcases List.mem_cons.mp hx with rfl | hx
      · exact hlt
      · exact UInt32.lt_trans hlt (hhead x hx)
    · rename_i hle
      split
      · exact h
      · rename_i hne
        refine List.pairwise_cons.mpr ⟨fun x hx => ?_, ih htail⟩
        rcases mem_insertNew.mp hx with rfl | hx
        · exact UInt32.lt_of_le_of_ne (UInt32.not_lt.mp hle) (Ne.symm hne)
        · exact hhead x hx

theorem mem_toSet : x ∈ toSet words ↔ x ∈ words := by
  induction words with
  | nil => rfl
  | cons w words ih => rw [toSet, List.foldr_cons, mem_insertNew, ← toSet, ih, List.mem_cons]

theorem pairwise_toSet (words : List UInt32) : (toSet words).Pairwise (· < ·) := by
  induction words with
  | nil => exact .nil
  | cons w words ih => exact pairwise_insertNew ih

theorem nodup_toSet (words : List UInt32) : (toSet words).Nodup := (pairwise_toSet words).imp UInt32.ne_of_lt

/-- A set has each of its words once. -/
theorem count_toSet (words : List UInt32) (w : UInt32) : (toSet words).count w = if w ∈ words then 1 else 0 := by
  rw [(nodup_toSet words).count]
  simp only [mem_toSet]

/-- The set of some words, entered one after the other. -/
theorem mem_foldl_insertNew {set : List UInt32} :
    x ∈ words.foldl (fun set w => insertNew w set) set ↔ x ∈ words ∨ x ∈ set := by
  induction words generalizing set with
  | nil => simp
  | cons w words ih => rw [List.foldl_cons, ih, mem_insertNew, List.mem_cons, or_assoc, or_left_comm]

theorem pairwise_foldl_insertNew {set : List UInt32} (h : set.Pairwise (· < ·)) :
    (words.foldl (fun set w => insertNew w set) set).Pairwise (· < ·) := by
  induction words generalizing set with
  | nil => exact h
  | cons w words ih => exact ih (pairwise_insertNew h)

theorem foldl_insertNew_congr (h : ∀ x, x ∈ words ↔ x ∈ words') :
    words.foldl (fun set w => insertNew w set) [] = words'.foldl (fun set w => insertNew w set) [] := by
  refine List.Pairwise.eq_of_mem_iff (r := (· < ·)) (pairwise_foldl_insertNew .nil) (pairwise_foldl_insertNew .nil) ?_
  intro x
  rw [mem_foldl_insertNew, mem_foldl_insertNew, h]

end MethodAssembler.SortedWords
