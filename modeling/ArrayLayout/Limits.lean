/-
Limits on requests, and the decision whether a request is admitted.

A request is a list of signed extents.  `Limits.accept` turns it into a shape and
its footprint, or says why not.  The checks come in a fixed order: no extents, too
many dimensions, a negative extent, a count that overflows, too many cells.

The cell limit in force is never above what one block of memory can hold
(`Limits.effectiveMaxCells`), and a builder whose slots are wider than a cell
lowers it further first (`Limits.clampTo`).
-/
import ArrayLayout.Footprint
import ArrayLayout.Rejection

namespace ArrayLayout

/-- A list of extents that were not negative, or the first that is. -/
def Shape.ofRequestFrom (depth : Nat) : List Int64 → Except Rejection Shape
  | [] => .ok []
  | extent :: rest => do
    if extent < 0 then
      throw (.negativeExtent depth extent.toInt)
    let inner ← ofRequestFrom (depth + 1) rest
    return extent.toUInt64 :: inner

/-- The shape that a request asks for: at least one extent, none of them negative. -/
def Shape.ofRequest : List Int64 → Except Rejection Shape
  | [] => .error .noExtents
  | extent :: rest => ofRequestFrom 0 (extent :: rest)

/-- What a checked builder accepts. -/
structure Limits where
  /-- Most dimensions. -/
  maxRank : Nat := 32
  /-- Most cells of one request, length cells included. -/
  maxCells : Nat := 0x8000_0000
  deriving DecidableEq, Inhabited

namespace Limits

/-- The limits in force when none are given. -/
def standard : Limits := {}

/-- Limits that arrive as two words. -/
def ofWords (maxRank maxCells : UInt64) : Limits := ⟨maxRank.toNat, maxCells.toNat⟩

/-- The cell limit in force: never more than one block can hold. -/
def effectiveMaxCells (l : Limits) : Nat := min l.maxCells maxAddressableCells

/-- Limits under which the largest array still fits in one block when each of its
elements takes `slotBytes` bytes. -/
def clampTo (l : Limits) (slotBytes : Nat) : Limits :=
  { l with maxCells := min l.maxCells (maxBlockBytes / slotBytes) }

/-- Decides on a request: its shape and what that costs, or why it is turned down. -/
def accept (l : Limits) (request : List Int64) : Except Rejection (Shape × Footprint) := do
  if l.maxRank < request.length then
    throw (.rankAboveLimit request.length l.maxRank)
  let shape ← Shape.ofRequest request
  let footprint ←
    match Footprint.of? shape with
    | some footprint => pure footprint
    | none => throw .countOverflow
  if l.effectiveMaxCells < footprint.cells then
    throw (.tooManyCells footprint.cells l.effectiveMaxCells)
  return (shape, footprint)

end Limits

end ArrayLayout
