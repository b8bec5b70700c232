/-
Nested arrays in memory, with their number of dimensions.

A `Root` is a reference together with the number of dimensions below it, which is what
it takes to read or to release a nested array.  `Root.guard` makes one from a reference
that may be missing and a number that may be zero; the missing reference is noticed
first.  `Root.view?` gathers what is reported about a nested array in memory.
-/
import ArrayLayout.Heap.Build
import ArrayLayout.Heap.Release
import ArrayLayout.Tree.Measure

namespace ArrayLayout

/-- A nested array in memory. -/
structure Root where
  array : Ref
  rank : Nat
  rank_pos : 0 < rank

namespace Root

/-- A nested array from a reference, which may be missing, and a number of dimensions. -/
def guard (array : Option Ref) (rank : Nat) : Except Fault Root :=
  match array with
  | none => .error .noRoot
  | some array =>
    if pos : 0 < rank then .ok ⟨array, rank, pos⟩ else .error .noRootRank

/-- Builds a nested array in memory, and takes hold of it. -/
def build (shape : Shape) : HeapM Root := do
  let array ← Heap.build shape
  MonadExcept.ofExcept (guard (some array) shape.rank)

/-- What the outermost length cell says. -/
def length? (t : Root) (h : Heap) : Option UInt64 := h.length? t.array

/-- Whether the outermost array has no elements. -/
def isEmpty? (t : Root) (h : Heap) : Option Bool := (t.length? h).map (· == 0)

/-- The nested array as a tree. -/
def tree? (t : Root) (h : Heap) : Option Tree := h.tree? t.rank t.array

/-- The direct sub-arrays; an array of numbers has none. -/
def children? (t : Root) (h : Heap) : Option (List Ref) :=
  if t.rank = 1 then some [] else h.children? t.array

/-- Gives the nested array back. -/
def release? (t : Root) (h : Heap) : Option Heap := h.release? t.rank t.array

/-- What is reported about a nested array in memory. -/
structure View where
  length : UInt64
  isEmpty : Bool
  /-- Number of direct sub-arrays. -/
  children : Nat
  /-- How many of these are different arrays. -/
  distinct : Nat
  tree : Tree

/-- Number of different arrays in a list. -/
def countDistinct (refs : List Ref) : Nat := refs.eraseDups.length

/-- The report on a nested array in memory. -/
def view? (t : Root) (h : Heap) : Option View := do
  let tree ← t.tree? h
  let length ← t.length? h
  let isEmpty ← t.isEmpty? h
  let subs ← t.children? h
  return ⟨length, isEmpty, subs.length, countDistinct subs, tree⟩

end Root

end ArrayLayout
