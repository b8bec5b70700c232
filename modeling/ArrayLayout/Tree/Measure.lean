/-
What can be read off a nested array as a whole.

* `Tree.footprint` — arrays, cells and elements, counted on the tree itself;
* `Tree.countFrom?` — the same count made in machine words, array by array;
* `Tree.shape` — lengths along the leftmost path;
* `Tree.conforms` — whether every array has the length a shape gives for its depth;
* `Tree.leaves`, `Tree.rows` — the leaves, and all arrays, from left to right.

The lemmas give the exact counts, the shape, conformance and the leaves of a leaf and of an interior
array.
-/
import ArrayLayout.Footprint
import ArrayLayout.Tree.Basic

namespace ArrayLayout

/-- Adds one array of `length` elements, `numbers` of which are numbers, to a
footprint, if all counts stay in a word. -/
def Footprint.addArray? (f : Footprint) (length numbers : UInt64) : Option Footprint := do
  let arrays ← checked (f.arrays + 1)
  let own ← checked (length.toNat + 1)
  let cells ← checked (f.cells + own)
  let elements ← checked (f.elements + numbers.toNat)
  return ⟨arrays, cells, elements⟩

namespace Tree

/-! ### Counts -/

/-- Arrays, cells and elements of a tree, going by the lengths that its arrays state. -/
def footprint : Tree → Footprint :=
  fold (fun l => ⟨1, l.length.toNat + 1, l.length.toNat⟩)
    (fun n below => ⟨1, n.toNat + 1, 0⟩ + below.sum)

@[simp] theorem footprint_leaf (l : Leaf) :
    (leaf l).footprint = ⟨1, l.length.toNat + 1, l.length.toNat⟩ := rfl

@[simp] theorem footprint_interior (n : UInt64) (ts : List Tree) :
    (interior n ts).footprint = ⟨1, n.toNat + 1, 0⟩ + (ts.map footprint).sum :=
  fold_interior ..

/-- Adds the arrays of a tree, in order, to a footprint.  Each count is kept in a word;
there is no result if one does not fit. -/
def countFrom? : Tree → Footprint → Option Footprint :=
  fold (fun l total => total.addArray? l.length l.length)
    (fun n below total => (total.addArray? n 0).bind fun total =>
      below.foldlM (fun total count => count total) total)

/-! ### Shape -/

/-- Lengths along the leftmost path, down to the first array without sub-arrays. -/
def shape : Tree → Shape :=
  fold (fun l => [l.length]) (fun n below => n :: below.headD [])

@[simp] theorem shape_leaf (l : Leaf) : (leaf l).shape = [l.length] := rfl

@[simp] theorem shape_interior (n : UInt64) (ts : List Tree) :
    (interior n ts).shape = n :: (ts.map shape).headD [] :=
  fold_interior ..

/-- Whether every array has the length that the shape gives for its depth, and the
leaves are exactly the arrays of the last depth. -/
def conforms : Tree → Shape → Bool
  | _, [] => false
  | leaf l, extent :: inner => l.length == extent && inner.isEmpty
  | interior n ts, extent :: inner =>
    n == extent && !inner.isEmpty && ts.all fun t => t.conforms inner

@[simp] theorem conforms_nil (t : Tree) : t.conforms [] = false := by
  cases t <;> rfl

@[simp] theorem conforms_leaf_cons (l : Leaf) (extent : UInt64) (inner : Shape) :
    (leaf l).conforms (extent :: inner) = (l.length == extent && inner.isEmpty) := rfl

@[simp] theorem conforms_interior_cons (n : UInt64) (ts : List Tree) (extent : UInt64)
    (inner : Shape) :
    (interior n ts).conforms (extent :: inner) =
      (n == extent && !inner.isEmpty && ts.all fun t => t.conforms inner) := rfl

/-- The one shape that a leaf conforms to. -/
theorem conforms_leaf_iff {l : Leaf} {s : Shape} : (leaf l).conforms s = true ↔ s = [l.length] := by
  cases s with
  | nil => simp
  | cons extent inner =>
    rw [conforms_leaf_cons, Bool.and_eq_true, beq_iff_eq, List.isEmpty_iff, List.cons.injEq,
      @eq_comm _ extent]

/-- The shapes that an interior array conforms to. -/
theorem conforms_interior_iff {n : UInt64} {ts : List Tree} {s : Shape} :
    (interior n ts).conforms s = true ↔
      ∃ inner, s = n :: inner ∧ inner ≠ [] ∧ ∀ t ∈ ts, t.conforms inner = true := by
  cases s with
  | nil => simp
  | cons extent inner =>
    rw [conforms_interior_cons]
    simp only [Bool.and_eq_true, beq_iff_eq, Bool.not_eq_true', List.isEmpty_eq_false_iff,
      List.all_eq_true]
    constructor
    · rintro ⟨⟨rfl, more⟩, parts⟩
      exact ⟨inner, rfl, more, parts⟩
    · rintro ⟨_, same, more, parts⟩
      obtain ⟨rfl, rfl⟩ := List.cons.inj same
      exact ⟨⟨rfl, more⟩, parts⟩

/-! ### Listings -/

/-- The leaves, from left to right. -/
def leaves : Tree → List Leaf :=
  fold (fun l => [l]) (fun _ below => below.flatten)

@[simp] theorem leaves_leaf (l : Leaf) : (leaf l).leaves = [l] := rfl

@[simp] theorem leaves_interior (n : UInt64) (ts : List Tree) :
    (interior n ts).leaves = ts.flatMap leaves := by
  rw [leaves, fold_interior]
  exact List.flatMap_def.symm

/-- One line of a listing: an array at its depth, without its sub-arrays. -/
inductive Row where
  | interior (depth : Nat) (length : UInt64)
  | leaf (depth : Nat) (array : Leaf)
  deriving DecidableEq

/-- All arrays from `depth` on, each before its sub-arrays. -/
def rowsFrom : Tree → Nat → List Row :=
  fold (fun l depth => [.leaf depth l])
    (fun n below depth => .interior depth n :: below.flatMap fun rows => rows (depth + 1))

/-- All arrays of a tree, each before its sub-arrays. -/
def rows (t : Tree) : List Row := t.rowsFrom 0

end Tree

end ArrayLayout
