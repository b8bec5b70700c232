/-
Reading nested arrays in memory.

Whoever reads an array trusts its length cell: a smaller length hides the cells behind
it.  Cells do not tell numbers from references, so the number of dimensions has to be
known.  Reading has no result where it would leave the block, meet a block that is not
live, or take a number for a reference or the reverse.

* `Heap.length?`, `Heap.cells?`, `Heap.payload?` — one array;
* `Heap.tree?` — the nested array with a given number of dimensions, as a tree;
* `Heap.follow?` — the array at a path of zero-based indices;
* `Heap.readTree` — reading for callers, who may not ask for zero dimensions;
* `Heap.Extends` — memory with blocks added.
-/
import ArrayLayout.Fault
import ArrayLayout.Heap.Basic
import ArrayLayout.Tree.Basic

namespace ArrayLayout

namespace Heap

/-- What the length cell of an array says. -/
def length? (h : Heap) (r : Ref) : Option UInt64 := do
  let cells ← h.block? r
  (← cells[lengthCell]?).num?

/-- All cells of an array as far as its length goes, the length cell first. -/
def cells? (h : Heap) (r : Ref) : Option (List Cell) := do
  let cells ← h.block? r
  let length ← h.length? r
  if length.toNat + 1 ≤ cells.length then some (cells.take (length.toNat + 1)) else none

/-- The elements of an array as far as its length goes. -/
def payload? (h : Heap) (r : Ref) : Option (List Cell) :=
  (h.cells? r).map fun cells => cells.drop (lengthCell + 1)

/-- The array as a leaf: every cell is a number. -/
def leaf? (h : Heap) (r : Ref) : Option Leaf := do
  let numbers ← (← h.cells? r).mapM Cell.num?
  return ⟨numbers⟩

/-- The sub-arrays of an array: every element is a reference. -/
def children? (h : Heap) (r : Ref) : Option (List Ref) := do
  (← h.payload? r).mapM Cell.ref?

/-- The nested array of `rank` dimensions at a reference, copied into a tree. -/
def tree? (h : Heap) : (rank : Nat) → Ref → Option Tree
  | 0, _ => none
  | 1, r => (h.leaf? r).map Tree.leaf
  | rank + 2, r => do
    let length ← h.length? r
    let subs ← h.children? r
    return .interior length (← subs.mapM fun s => h.tree? (rank + 1) s)

/-- The array at a path, by way of the references on it. -/
def follow? (h : Heap) : Ref → List Nat → Option Ref
  | r, [] => some r
  | r, i :: rest => do
    let subs ← h.payload? r
    let s ← (← subs[i]?).ref?
    h.follow? s rest

/-- Copies the nested array of `rank` dimensions at a reference into a tree.  Zero
dimensions are a fault of the caller. -/
def readTree (h : Heap) (rank : Nat) (r : Ref) : Except Fault (Option Tree) :=
  if rank = 0 then .error .noRank else .ok (h.tree? rank r)

@[simp] theorem tree?_zero (h : Heap) (r : Ref) : h.tree? 0 r = none := rfl

@[simp] theorem tree?_one (h : Heap) (r : Ref) : h.tree? 1 r = (h.leaf? r).map Tree.leaf := rfl

@[simp] theorem follow?_nil (h : Heap) (r : Ref) : h.follow? r [] = some r := rfl

/-! ### Memory that grows -/

/-- Every live block of `h` is a block of `h'` with the same cells. -/
def Extends (h h' : Heap) : Prop :=
  ∀ r cells, h.block? r = some cells → h'.block? r = some cells

end Heap

end ArrayLayout
