/-
Building nested arrays as trees.

Two primitives do all the work: `Leaf.build` for the innermost dimension and
`Tree.buildInterior` for every other one.  The latter asks its source for sub-array
number 0, 1, 2, and so on, once each.  It works in any monad, so a source may keep a
state, and a source that stops stops the builder.

* `Tree.build` — one level per extent, all numbers zero;
* `Tree.buildOver` — an interior array over sub-arrays of given shapes;
* `Tree.tryBuild` — a nested array for a request, if the limits accept it;
* `Tree.build_singleton`, `Tree.build_cons_cons` — the equations of `Tree.build`.

No array is built whose cells, or whose slots for sub-arrays, do not fit in memory.
The check of an array comes before those of its sub-arrays, and without elements there
are no sub-arrays to check.
-/
import ArrayLayout.Request
import ArrayLayout.Tree.Basic

namespace ArrayLayout

universe u v

/-- What `source` returns for `start`, `start + 1`, and so on, `count` results in all,
each asked for once and in this order. -/
def collectFrom {m : Type u → Type v} [Monad m] {α : Type u} (source : Nat → m α) (start : Nat) :
    (count : Nat) → m (List α)
  | 0 => pure []
  | count + 1 => do
    let a ← source start
    let as ← collectFrom source (start + 1) count
    return a :: as

/-- The shape that a list gives for a number when it is repeated without end.  An empty
list gives the empty shape. -/
def Shape.inTurn (shapes : List Shape) (number : Nat) : Shape :=
  shapes[number % shapes.length]?.getD []

/-- Bytes that an interior array of a tree takes for each sub-array. -/
def slotBytes : Nat := 24

/-- A leaf of `extent` zeros, if its cells fit in memory. -/
def Leaf.build (extent : UInt64) : Except Fault Leaf :=
  match cellsFor? extent with
  | none => .error (.unaddressable extent)
  | some cells =>
    if cells * cellBytes ≤ maxBlockBytes then .ok (zeros extent) else .error .slotCapacity

namespace Tree

/-- Checks that the slots of an interior array fit in memory. -/
def checkSlots (extent : UInt64) : Except Fault Unit :=
  match cellsFor? extent with
  | none => .error (.unaddressable extent)
  | some _ =>
    if extent.toNat * slotBytes ≤ maxBlockBytes then .ok () else .error .slotCapacity

/-- An interior array of `extent` sub-arrays, each taken from `source`. -/
def buildInterior {m : Type → Type v} [Monad m] [MonadExcept Fault m] (extent : UInt64)
    (source : Nat → m Tree) : m Tree := do
  MonadExcept.ofExcept (checkSlots extent)
  let children ← collectFrom source 0 extent.toNat
  return interior extent children

/-- A nested array with one level per extent and all numbers zero. -/
def build : Shape → Except Fault Tree
  | [] => .error .noRank
  | [extent] => (Leaf.build extent).map leaf
  | extent :: next :: inner => buildInterior extent fun _ => build (next :: inner)

theorem build_singleton (extent : UInt64) :
    build [extent] = (Leaf.build extent).map leaf := rfl

theorem build_cons_cons (extent next : UInt64) (inner : Shape) :
    build (extent :: next :: inner) = buildInterior extent fun _ => build (next :: inner) := rfl

/-- An interior array over sub-arrays of the given shapes, taken in turn, together with
the number of sub-arrays that were asked for. -/
def buildOver (extent : UInt64) (shapes : List Shape) : Except Fault (Tree × Nat) :=
  let source (number : Nat) : StateT Nat (Except Fault) Tree := do
    modify (· + 1)
    build (Shape.inTurn shapes number)
  (buildInterior extent source).run 0

/-- Decides on a request under limits, and builds the tree if it is admitted. -/
def tryBuild (limits : Limits) (request : List Int64) : Logged (Except Failure Tree) :=
  limits.buildWith slotBytes build request

end Tree

end ArrayLayout
