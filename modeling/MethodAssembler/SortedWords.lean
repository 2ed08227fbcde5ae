/-! # Sorted words

Words in ascending order, by insertion: with repetitions for sorting, without for sets. -/

namespace MethodAssembler.SortedWords

/-- Inserts a word before the first one that is not below it. -/
def insert (w : UInt32) : List UInt32 → List UInt32
  | [] => [w]
  | x :: rest => if w ≤ x then w :: x :: rest else x :: insert w rest

/-- The words in ascending order. -/
def sort (words : List UInt32) : List UInt32 := words.foldr insert []

/-- Inserts a word into a set. -/
def insertNew (w : UInt32) : List UInt32 → List UInt32
  | [] => [w]
  | x :: rest => if w < x then w :: x :: rest else if w = x then x :: rest else x :: insertNew w rest

/-- The set of the words. -/
def toSet (words : List UInt32) : List UInt32 := words.foldr insertNew []

end MethodAssembler.SortedWords
