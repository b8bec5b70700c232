/-
Memory for arrays of words.

In memory an array is one block of cells: its length in cell 0, then its elements.  An
element is a number or a reference to the block of a sub-array; nothing in the block
itself says how many dimensions are below it, the reader has to know.  Blocks are shared
by reference, and a write through one reference is seen through all others.

A block gets the next unused reference and keeps its number of cells until it is freed;
a reference is never given out twice.

* `Heap.block?` — the cells behind a reference, the view through which all else is stated;
* `Heap.push`, `Heap.store`, `Heap.free?` — a new block, a write, the end of a block, with
  lemmas on what each does to the block in question and to the others.
-/
import ArrayLayout.Word

namespace ArrayLayout

/-- Stands for the first cell of a block. -/
structure Ref where
  /-- Number of blocks made before this one. -/
  index : Nat
  deriving DecidableEq, Inhabited

/-- One cell of an array in memory. -/
inductive Cell where
  /-- A number, or a length. -/
  | num (value : UInt64)
  /-- A sub-array. -/
  | ref (target : Ref)
  deriving DecidableEq, Inhabited

/-- The number in a cell. -/
def Cell.num? : Cell → Option UInt64
  | num value => some value
  | ref _ => none

/-- The sub-array in a cell. -/
def Cell.ref? : Cell → Option Ref
  | num _ => none
  | ref target => some target

/-- Blocks by reference; a freed block leaves its place empty. -/
structure Heap where
  /-- The blocks in the order in which they were made. -/
  blocks : Array (Option (List Cell))
  deriving Inhabited

namespace Heap

/-- Memory before anything is allocated. -/
def empty : Heap := ⟨#[]⟩

/-- The cells of a live block. -/
def block? (h : Heap) (r : Ref) : Option (List Cell) := h.blocks[r.index]?.join

/-- The reference for the next block. -/
def next (h : Heap) : Ref := ⟨h.blocks.size⟩

/-- Adds a block with the given cells, at `h.next`. -/
def push (h : Heap) (cells : List Cell) : Heap := ⟨h.blocks.push (some cells)⟩

/-- Writes one cell of a live block.  Nothing changes if there is no such cell. -/
def store (h : Heap) (r : Ref) (index : Nat) (c : Cell) : Heap :=
  match h.block? r with
  | none => h
  | some cells => ⟨h.blocks.setIfInBounds r.index (some (cells.set index c))⟩

/-- Gives back a live block of exactly `bytes` bytes.  There is no result for a block
that is not live, or of another size. -/
def free? (h : Heap) (r : Ref) (bytes : Nat) : Option Heap :=
  match h.block? r with
  | none => none
  | some cells =>
    if bytes = cellBytes * cells.length then
      some ⟨h.blocks.setIfInBounds r.index none⟩
    else none

/-! ### New blocks -/

theorem ref_lt_of_block? {h : Heap} {r : Ref} {cells : List Cell} (live : h.block? r = some cells) :
    r.index < h.blocks.size := by
  by_cases bound : r.index < h.blocks.size
  · exact bound
  · have out : h.blocks[r.index]? = none := Array.getElem?_eq_none (by omega)
    simp [block?, out] at live

@[simp] theorem block?_push_next (h : Heap) (cells : List Cell) :
    (h.push cells).block? h.next = some cells := by
  simp [block?, push, next]

theorem block?_push_of_ne {h : Heap} {cells : List Cell} {r : Ref} (other : r ≠ h.next) :
    (h.push cells).block? r = h.block? r := by
  have away : r.index ≠ h.blocks.size := fun same => other (by cases r; simp_all [next])
  simp [block?, push, Array.getElem?_push, away]

/-! ### Writes -/

theorem block?_store_self {h : Heap} {r : Ref} {cells : List Cell} (index : Nat) (c : Cell)
    (live : h.block? r = some cells) :
    (h.store r index c).block? r = some (cells.set index c) := by
  have bound := ref_lt_of_block? live
  simp only [store, live]
  simp [block?, bound]

theorem block?_store_of_ne {h : Heap} {r s : Ref} (index : Nat) (c : Cell) (other : s ≠ r) :
    (h.store r index c).block? s = h.block? s := by
  have away : r.index ≠ s.index := fun same => other (by cases r; cases s; simp_all)
  unfold store
  split
  · rfl
  · simp [block?, away]

@[simp] theorem next_store (h : Heap) (r : Ref) (index : Nat) (c : Cell) :
    (h.store r index c).next = h.next := by
  unfold store
  split <;> simp [next]

/-! ### Freeing -/

theorem block?_free?_self {h h' : Heap} {r : Ref} {bytes : Nat}
    (freed : h.free? r bytes = some h') : h'.block? r = none := by
  unfold free? at freed
  split at freed
  · cases freed
  · rename_i cells live
    split at freed
    · cases freed
      simp [block?, ref_lt_of_block? live]
    · cases freed

theorem block?_free?_of_ne {h h' : Heap} {r s : Ref} {bytes : Nat}
    (freed : h.free? r bytes = some h') (other : s ≠ r) : h'.block? s = h.block? s := by
  have away : r.index ≠ s.index := fun same => other (by cases r; cases s; simp_all)
  unfold free? at freed
  split at freed
  · cases freed
  · split at freed
    · cases freed
      simp [block?, away]
    · cases freed

end Heap

end ArrayLayout
