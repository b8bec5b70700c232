/-
Giving nested arrays in memory back.

`Heap.release?` frees an array of a given number of dimensions, sub-arrays first.  It
reads the length of an array before it frees the sub-arrays, and frees the array with the
size that goes with that length.  There is no result if a block on the way is not live,
is freed with another size than it was allocated with, or is reached a second time, so a
result means that every block was freed once and with its own size.
-/
import ArrayLayout.Heap.Read

namespace ArrayLayout

namespace Heap

/-- Frees a single array, by the size that its length cell stands for. -/
def freeArray? (h : Heap) (r : Ref) (length : UInt64) : Option Heap :=
  h.free? r (cellBytes * (length.toNat + 1))

/-- Frees the nested array of `rank` dimensions at a reference. -/
def release? : (rank : Nat) → Ref → Heap → Option Heap
  | 0, _, _ => none
  | 1, r, h => do
    let length ← h.length? r
    h.freeArray? r length
  | rank + 2, r, h => do
    let length ← h.length? r
    let subs ← h.children? r
    let rest ← subs.foldlM (fun h s => release? (rank + 1) s h) h
    rest.freeArray? r length

end Heap

end ArrayLayout
