/-
Why a request for an array is turned down before anything is built.

`Rejection.message` is the sentence shown to users, `Rejection.inspect` the form
shown to developers.  The reasons are listed in the order of the checks.
-/

namespace ArrayLayout

/-- Reasons to turn a request down. -/
inductive Rejection where
  /-- No extents at all: arrays have rank 1 or more. -/
  | noExtents
  /-- More dimensions than the limits allow. -/
  | rankAboveLimit (rank max : Nat)
  /-- The first negative extent. -/
  | negativeExtent (depth : Nat) (extent : Int)
  /-- Some count leaves the range of a word. -/
  | countOverflow
  /-- More cells than the limits allow. -/
  | tooManyCells (requested limit : Nat)
  deriving DecidableEq, Inhabited

namespace Rejection

/-- The sentence shown to users. -/
def message : Rejection → String
  | noExtents => "dimension list is empty"
  | rankAboveLimit rank max => "rank " ++ rank.repr ++ " exceeds maximum rank " ++ max.repr
  | negativeExtent depth extent =>
    "negative extent " ++ extent.repr ++ " at dimension " ++ depth.repr
  | countOverflow => "cell count overflows u64"
  | tooManyCells requested limit =>
    "shape needs " ++ requested.repr ++ " cells, limit is " ++ limit.repr ++ " cells"

/-- A name, and in braces its fields with their values. -/
def withFields (name : String) (fields : List (String × String)) : String :=
  name ++ " \x7b " ++ ", ".intercalate (fields.map fun f => f.1 ++ ": " ++ f.2) ++ " \x7d"

/-- The form shown to developers. -/
def inspect : Rejection → String
  | noExtents => "EmptyDims"
  | rankAboveLimit rank max => withFields "RankTooLarge" [("rank", rank.repr), ("max", max.repr)]
  | negativeExtent depth extent =>
    withFields "NegativeExtent" [("depth", depth.repr), ("extent", extent.repr)]
  | countOverflow => "Overflow"
  | tooManyCells requested limit =>
    withFields "TooLarge" [("requested", requested.repr), ("limit", limit.repr)]

end Rejection

end ArrayLayout
