/-
Faults: how an operation stops when a promise of its caller is broken.

The unchecked builders promise nothing for extents that memory cannot hold, the
assertions stop at the first array that is not as wanted, and a guard over a tree in
memory refuses a root that cannot be one.  `Fault.message` is the text shown.
-/
import ArrayLayout.Shape

namespace ArrayLayout

/-- Reasons for which an operation stops without a result. -/
inductive Fault where
  /-- A nested array was asked for, or read, with no dimension at all. -/
  | noRank
  /-- The cells of one array do not fit in memory. -/
  | unaddressable (extent : UInt64)
  /-- The slots of one array do not fit in memory. -/
  | slotCapacity
  /-- A guard was given no root. -/
  | noRoot
  /-- A guard was given a root of rank zero. -/
  | noRootRank
  /-- An array does not have the wanted shape. -/
  | shapeMismatch (actual wanted : Shape)
  /-- A leaf holds a number other than zero. -/
  | nonzeroPayload (payload : List UInt64)
  deriving DecidableEq, Inhabited

/-- The text shown for a fault. -/
def Fault.message : Fault → String
  | noRank => "nested array rank must be at least 1"
  | unaddressable extent => "array extent " ++ extent.toNat.repr ++ " exceeds the address space"
  | slotCapacity => "capacity overflow"
  | noRoot => "raw tree root is null"
  | noRootRank => "raw tree rank must be at least 1"
  | shapeMismatch actual wanted =>
    "array shape " ++ actual.text ++ " does not conform to " ++ wanted.listText
  | nonzeroPayload payload => "leaf payload not zeroed: " ++ Shape.listText payload

end ArrayLayout
