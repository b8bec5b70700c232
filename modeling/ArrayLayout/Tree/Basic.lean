/-
Nested arrays as trees.

A nested array is a leaf, whose cells hold its length and then numbers, or an
interior array, which holds its length and one sub-array per element.  The kind is
part of the value, so a number is never read as a sub-array.

* `Leaf` — one innermost array, with its payload apart from the length cell;
* `Tree` — a nested array of any depth, even or uneven;
* `Tree.fold` — the one recursion over trees; `Tree.fold_interior` is its equation;
* `Tree.induct` — induction with one hypothesis for all sub-arrays of an array;
* decidable equality: a leaf never equals an interior array.
-/
import ArrayLayout.Word

namespace ArrayLayout

universe u

/-- An innermost array: its length cell, then its numbers. -/
structure Leaf where
  /-- All cells, the length cell first. -/
  cells : List UInt64
  deriving DecidableEq, Inhabited

namespace Leaf

/-- A leaf of `extent` zeros. -/
def zeros (extent : UInt64) : Leaf := ⟨extent :: List.replicate extent.toNat 0⟩

/-- What the length cell says. -/
def length (l : Leaf) : UInt64 := l.cells.headD 0

/-- The numbers: all cells after the length cell. -/
def payload (l : Leaf) : List UInt64 := l.cells.drop (lengthCell + 1)

/-- The number at a zero-based index. -/
def get? (l : Leaf) (index : Nat) : Option UInt64 := l.payload[index]?

/-- Replaces the number at a zero-based index.  The length cell has no index. -/
def set? (l : Leaf) (index : Nat) (value : UInt64) : Option Leaf :=
  if index < l.payload.length then some ⟨l.cells.set (lengthCell + 1 + index) value⟩ else none

/-- The first `n` terms of `value`, `value + step`, `value + 2 * step`, and so on, as words. -/
def progression (value step : UInt64) : Nat → List UInt64
  | 0 => []
  | n + 1 => value :: progression (value + step) step n

/-- Replaces all numbers by the terms of a progression. -/
def fill (l : Leaf) (value step : UInt64) : Leaf :=
  ⟨l.cells.take (lengthCell + 1) ++ progression value step l.payload.length⟩

@[simp] theorem length_mk (n : UInt64) (ns : List UInt64) : (Leaf.mk (n :: ns)).length = n := rfl

@[simp] theorem payload_mk (n : UInt64) (ns : List UInt64) : (Leaf.mk (n :: ns)).payload = ns := rfl

@[simp] theorem length_zeros (extent : UInt64) : (zeros extent).length = extent := rfl

@[simp] theorem payload_zeros (extent : UInt64) :
    (zeros extent).payload = List.replicate extent.toNat 0 := rfl

/-- A number is stored exactly at the indices that a leaf has. -/
theorem isSome_set? {l : Leaf} {index : Nat} {value : UInt64} :
    (l.set? index value).isSome = true ↔ index < l.payload.length := by
  unfold set?
  split <;> simp_all

/-- Storing a number changes one number and nothing else. -/
theorem payload_set? {l l' : Leaf} {index : Nat} {value : UInt64}
    (stored : l.set? index value = some l') : l'.payload = l.payload.set index value := by
  unfold set? at stored
  split at stored
  · cases stored
    obtain ⟨cells⟩ := l
    cases cells with
    | nil => simp [payload]
    | cons n ns => simp [payload, lengthCell, Nat.add_comm 1 index]
  · cases stored

/-- The length cell stays as it is when a number is stored. -/
theorem length_set? {l l' : Leaf} {index : Nat} {value : UInt64}
    (stored : l.set? index value = some l') : l'.length = l.length := by
  unfold set? at stored
  split at stored
  · cases stored
    obtain ⟨cells⟩ := l
    cases cells with
    | nil => simp [length]
    | cons n ns => simp [length, lengthCell, Nat.add_comm 1 index]
  · cases stored

@[simp] theorem length_progression (value step : UInt64) (n : Nat) :
    (progression value step n).length = n := by
  induction n generalizing value with
  | zero => rfl
  | succ n ih => simp [progression, ih]

end Leaf

/-- A nested array. -/
inductive Tree where
  /-- Innermost dimension. -/
  | leaf (array : Leaf)
  /-- Outer dimension: a length and the sub-arrays. -/
  | interior (length : UInt64) (children : List Tree)
  deriving Inhabited

namespace Tree

/-- Number of elements that the outermost array says it has. -/
def length : Tree → UInt64
  | leaf l => l.length
  | interior n _ => n

/-- Whether the outermost array has no elements. -/
def isEmpty (t : Tree) : Bool := t.length == 0

/-- Whether there is only one dimension. -/
def isLeaf : Tree → Bool
  | leaf _ => true
  | interior _ _ => false

/-- The outermost array, if it holds numbers. -/
def leaf? : Tree → Option Leaf
  | leaf l => some l
  | interior _ _ => none

/-- The direct sub-arrays. -/
def children : Tree → List Tree
  | leaf _ => []
  | interior _ ts => ts

/-- The sub-array at a zero-based index. -/
def child? (t : Tree) (index : Nat) : Option Tree := t.children[index]?

/-! ### Recursion and induction -/

variable {α : Type u}

mutual

/-- Value of a tree, from the values of its leaves and from what an interior array
makes of its length and the values of its sub-arrays. -/
def fold (onLeaf : Leaf → α) (onInterior : UInt64 → List α → α) : Tree → α
  | leaf l => onLeaf l
  | interior n ts => onInterior n (foldAll onLeaf onInterior ts)

/-- Values of a list of trees. -/
def foldAll (onLeaf : Leaf → α) (onInterior : UInt64 → List α → α) : List Tree → List α
  | [] => []
  | t :: ts => fold onLeaf onInterior t :: foldAll onLeaf onInterior ts

end

theorem foldAll_eq_map (onLeaf : Leaf → α) (onInterior : UInt64 → List α → α) (ts : List Tree) :
    foldAll onLeaf onInterior ts = ts.map (fold onLeaf onInterior) := by
  induction ts with
  | nil => rfl
  | cons t ts ih => rw [foldAll, ih, List.map_cons]

@[simp] theorem fold_leaf (onLeaf : Leaf → α) (onInterior : UInt64 → List α → α) (l : Leaf) :
    fold onLeaf onInterior (leaf l) = onLeaf l := rfl

@[simp] theorem fold_interior (onLeaf : Leaf → α) (onInterior : UInt64 → List α → α)
    (n : UInt64) (ts : List Tree) :
    fold onLeaf onInterior (interior n ts) = onInterior n (ts.map (fold onLeaf onInterior)) := by
  rw [fold, foldAll_eq_map]

/-- Induction over trees: an interior array may use the hypothesis for each of its
sub-arrays. -/
@[elab_as_elim, induction_eliminator]
theorem induct {motive : Tree → Prop} (leaf : ∀ l, motive (leaf l))
    (interior : ∀ n ts, (∀ t ∈ ts, motive t) → motive (interior n ts)) (t : Tree) : motive t := by
  refine Tree.rec (motive_1 := motive) (motive_2 := fun ts => ∀ t ∈ ts, motive t)
    leaf interior ?_ ?_ t
  · intro s hs
    cases hs
  · intro head tail ihHead ihTail s hs
    cases hs with
    | head => exact ihHead
    | tail _ h => exact ihTail s h

/-! ### Equality -/

mutual

/-- Decides equality of two trees. -/
def decEq : (s t : Tree) → Decidable (s = t)
  | leaf a, leaf b =>
    if h : a = b then isTrue (by rw [h]) else isFalse (by simpa using h)
  | leaf _, interior _ _ => isFalse (by simp)
  | interior _ _, leaf _ => isFalse (by simp)
  | interior m ss, interior n ts =>
    if h : m = n then
      match decEqAll ss ts with
      | isTrue hs => isTrue (by rw [h, hs])
      | isFalse hs => isFalse (by simp [hs])
    else isFalse (by simp [h])

/-- Decides equality of two lists of trees. -/
def decEqAll : (ss ts : List Tree) → Decidable (ss = ts)
  | [], [] => isTrue rfl
  | [], _ :: _ => isFalse (by simp)
  | _ :: _, [] => isFalse (by simp)
  | s :: ss, t :: ts =>
    match decEq s t, decEqAll ss ts with
    | isTrue h, isTrue hs => isTrue (by rw [h, hs])
    | isFalse h, _ => isFalse (by simp [h])
    | _, isFalse hs => isFalse (by simp [hs])

end

instance : DecidableEq Tree := decEq

end Tree

end ArrayLayout
