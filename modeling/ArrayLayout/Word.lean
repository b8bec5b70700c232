/-
Machine words and the sizes that memory allows.

Every cell of an array is one 64-bit word, and cell 0 of an array holds the
array's own length.  Counts are natural numbers here; where a count has to stay
in a word it goes through `checked`:

* `checked n` — `n` if it fits in a word, nothing otherwise;
* `cellsFor? e` — cells of one array with `e` elements, length cell included;
* `blockFits cells` — whether one block of memory can hold that many cells;
* `maxAddressableCells` — the largest count that fits (`blockFits_iff`).
-/

namespace ArrayLayout

/-- Number of values of a 64-bit word. -/
def wordLimit : Nat := 0x1_0000_0000_0000_0000

/-- Width of one cell in bytes. -/
def cellBytes : Nat := 8

/-- Index of the cell in which an array keeps its own length. -/
def lengthCell : Nat := 0

/-- Largest size in bytes of a single block of memory. -/
def maxBlockBytes : Nat := 0x7FFF_FFFF_FFFF_FFFF

/-- Most cells that a single block can hold. -/
def maxAddressableCells : Nat := maxBlockBytes / cellBytes

/-- A count, provided that it fits in a word. -/
def checked (n : Nat) : Option Nat :=
  if n < wordLimit then some n else none

@[simp] theorem checked_eq_some_iff {n m : Nat} :
    checked n = some m ↔ n < wordLimit ∧ n = m := by
  unfold checked
  split
  · simp_all
  · simp
    omega

@[simp] theorem checked_eq_none_iff {n : Nat} : checked n = none ↔ wordLimit ≤ n := by
  unfold checked
  split <;> simp_all

/-- Cells of an array with `extent` elements: one for each, and the length cell. -/
def cellsFor? (extent : UInt64) : Option Nat :=
  checked (extent.toNat + 1)

/-- The only length with no cell count is the largest word. -/
theorem cellsFor?_eq_none_iff {extent : UInt64} :
    cellsFor? extent = none ↔ extent.toNat = wordLimit - 1 := by
  have bound := extent.toNat_lt
  simp only [cellsFor?, checked_eq_none_iff, wordLimit]
  omega

theorem cellsFor?_eq_some_iff {extent : UInt64} {cells : Nat} :
    cellsFor? extent = some cells ↔
      extent.toNat < wordLimit - 1 ∧ cells = extent.toNat + 1 := by
  simp only [cellsFor?, checked_eq_some_iff, wordLimit]
  omega

/-- Whether one block can hold this many cells.  Blocks start and end at whole
cells, so the last, incomplete cell below the size limit cannot be used. -/
def blockFits (cells : Nat) : Bool :=
  decide (cellBytes * cells ≤ maxBlockBytes - (cellBytes - 1))

theorem blockFits_iff {cells : Nat} : blockFits cells = true ↔ cells ≤ maxAddressableCells := by
  rw [blockFits, decide_eq_true_iff]
  unfold maxAddressableCells maxBlockBytes cellBytes
  omega

end ArrayLayout
