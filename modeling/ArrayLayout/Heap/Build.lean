/-
Building nested arrays in memory.

The builders follow those of trees step by step, with a block in the place of each
array.  An interior array is allocated first, with all its elements zero, and each of
its sub-arrays is entered as soon as it is built.

* `blockLayout` — size and alignment of the block of one array, or a fault;
* `Heap.allocate` — one zeroed array with its length written;
* `Heap.buildInterior` — an interior array over sub-arrays taken from a source;
* `Heap.build` — one level per extent, all numbers zero.
-/
import ArrayLayout.Heap.Basic
import ArrayLayout.Tree.Build

namespace ArrayLayout

universe v

/-- Size and alignment of a block, in bytes. -/
structure BlockLayout where
  size : Nat
  align : Nat
  deriving DecidableEq

/-- Layout of the block of an array with `extent` elements. -/
def blockLayout (extent : UInt64) : Except Fault BlockLayout :=
  if blockFits (extent.toNat + 1) then
    .ok ⟨cellBytes * (extent.toNat + 1), cellBytes⟩
  else .error (.unaddressable extent)

/-- Computations that use memory and may stop. -/
abbrev HeapM := StateT Heap (Except Fault)

namespace Heap

/-- Cells of an array in memory before anything is entered into it. -/
def freshCells (extent : UInt64) : List Cell :=
  .num extent :: List.replicate extent.toNat (.num 0)

section

variable {m : Type → Type v} [Monad m] [MonadStateOf Heap m] [MonadExcept Fault m]

/-- Allocates an array of `extent` zeros. -/
def allocate (extent : UInt64) : m Ref := do
  let _ ← MonadExcept.ofExcept (blockLayout extent)
  modifyGet fun h => (h.next, h.push (freshCells extent))

/-- Enters `count` sub-arrays into an array, from element `start` on, each as soon as
the source returns it. -/
def enterFrom (source : Nat → m Ref) (array : Ref) (start : Nat) : (count : Nat) → m Unit
  | 0 => pure ()
  | count + 1 => do
    let sub ← source start
    modify fun h => h.store array (lengthCell + 1 + start) (.ref sub)
    enterFrom source array (start + 1) count

/-- Allocates an array of `extent` sub-arrays, each taken from `source`. -/
def buildInterior (extent : UInt64) (source : Nat → m Ref) : m Ref := do
  let array ← allocate extent
  enterFrom source array 0 extent.toNat
  return array

end

/-- A nested array in memory with one level per extent and all numbers zero. -/
def build : Shape → HeapM Ref
  | [] => throw .noRank
  | [extent] => allocate extent
  | extent :: next :: inner => buildInterior extent fun _ => build (next :: inner)

theorem build_singleton (extent : UInt64) : build [extent] = allocate extent := rfl

theorem build_cons_cons (extent next : UInt64) (inner : Shape) :
    build (extent :: next :: inner) = buildInterior extent fun _ => build (next :: inner) := rfl

/-- An interior array in memory over sub-arrays of the given shapes, taken in turn,
together with the number of sub-arrays that were asked for. -/
def buildOver (extent : UInt64) (shapes : List Shape) : HeapM (Ref × Nat) :=
  let source (number : Nat) : StateT Nat HeapM Ref := do
    modify (· + 1)
    build (Shape.inTurn shapes number)
  (buildInterior extent source).run 0

/-- Decides on a request under limits, and builds it in memory if it is admitted. -/
def tryBuild (limits : Limits) (request : List Int64) (h : Heap) :
    Logged (Except Failure (Ref × Heap)) :=
  limits.buildWith cellBytes (fun shape => (build shape).run h) request

end Heap

end ArrayLayout
