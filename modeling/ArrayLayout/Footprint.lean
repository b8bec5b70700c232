/-
What a shape costs: arrays, cells and elements, counted without building it.

`Footprint.tally` goes down the dimensions with the number of arrays at the
current depth and keeps every running count in a machine word.  If a count does
not fit, it says which one:

* `Footprint.tally` — the footprint, or the first count that overflows;
* `Footprint.of?` — the same without the reason;
* `Footprint.exact` — the counts as unbounded numbers, for comparison.
-/
import ArrayLayout.Shape
import ArrayLayout.Word

namespace ArrayLayout

/-- Cost of a nested array. -/
@[ext]
structure Footprint where
  /-- Number of arrays, each a block of its own. -/
  arrays : Nat
  /-- Cells of all arrays, length cells included. -/
  cells : Nat
  /-- Numbers held by the innermost arrays. -/
  elements : Nat
  deriving DecidableEq, Inhabited

namespace Footprint

/-- Cost of nothing. -/
def zero : Footprint := ⟨0, 0, 0⟩

/-- Cost of two things together. -/
def add (f g : Footprint) : Footprint :=
  ⟨f.arrays + g.arrays, f.cells + g.cells, f.elements + g.elements⟩

instance : Zero Footprint := ⟨zero⟩

instance : Add Footprint := ⟨add⟩

@[simp] theorem arrays_zero : (0 : Footprint).arrays = 0 := rfl

@[simp] theorem cells_zero : (0 : Footprint).cells = 0 := rfl

@[simp] theorem elements_zero : (0 : Footprint).elements = 0 := rfl

@[simp] theorem arrays_add (f g : Footprint) : (f + g).arrays = f.arrays + g.arrays := rfl

@[simp] theorem cells_add (f g : Footprint) : (f + g).cells = f.cells + g.cells := rfl

@[simp] theorem elements_add (f g : Footprint) : (f + g).elements = f.elements + g.elements := rfl

/-- The count that left the range of a word. -/
inductive Overflow where
  /-- The number of arrays so far. -/
  | arrays
  /-- The cells of a single array. -/
  | arrayCells
  /-- The cells of all arrays of one depth. -/
  | levelCells
  /-- The number of cells so far. -/
  | cells
  /-- The number of arrays one level further down. -/
  | width
  deriving DecidableEq

/-- A checked count, with the name under which its overflow is reported. -/
def fit (n : Nat) (count : Overflow) : Except Overflow Nat :=
  match checked n with
  | some n => .ok n
  | none => .error count

/-- Counts the levels from one depth on, given the counts above it and the number
`width` of arrays at this depth. -/
def tallyFrom (above : Footprint) (width : Nat) : Shape → Except Overflow Footprint
  | [] => .ok { above with elements := width }
  | extent :: inner => do
    let arrays ← fit (above.arrays + width) .arrays
    let arrayCells ← fit (extent.toNat + 1) .arrayCells
    let levelCells ← fit (width * arrayCells) .levelCells
    let cells ← fit (above.cells + levelCells) .cells
    let below ← fit (width * extent.toNat) .width
    tallyFrom ⟨arrays, cells, 0⟩ below inner

/-- Footprint of a shape, or the first count that overflows.  The empty shape
costs nothing. -/
def tally : Shape → Except Overflow Footprint
  | [] => .ok 0
  | extent :: inner => tallyFrom 0 1 (extent :: inner)

/-- Footprint of a shape, if every count fits in a word. -/
def of? (s : Shape) : Option Footprint := (tally s).toOption

/-- Total size in bytes, if it fits in a word. -/
def bytes? (f : Footprint) : Option Nat := checked (f.cells * cellBytes)

/-- Counts of a shape as unbounded numbers: an array of `extent` elements, and
under it `extent` times what one element costs. -/
def exact : Shape → Footprint
  | [] => ⟨0, 0, 1⟩
  | extent :: inner =>
    let below := exact inner
    ⟨1 + extent.toNat * below.arrays, extent.toNat + 1 + extent.toNat * below.cells,
      extent.toNat * below.elements⟩

end Footprint

/-- Bytes of a shape for reports on throughput, zero when they do not fit in a word. -/
def Shape.reportedBytes (s : Shape) : Nat :=
  ((Footprint.of? s).bind Footprint.bytes?).getD 0

end ArrayLayout
