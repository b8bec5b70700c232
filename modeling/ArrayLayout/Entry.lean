/-
Entry points for programs that were compiled against memory arrays.

Compiled code passes counts and extents as signed words and gets references back.  The
unchecked entry points report the call and build at once: one takes a count and a list
that may be missing, the others take as many extents as their name says.  Negative
extents are taken as the words they are.  The checked entry point answers with a status
and touches nothing unless that status is `Status.ok`.

* `Call` — a call of an unchecked entry point; `Call.run` carries it out;
* `Status`, `Status.code` — answers of the checked entry point;
* `tryAllocate` — the checked entry point.
-/
import ArrayLayout.Heap.Build

namespace ArrayLayout

/-- The first `count` extents of a list that may be missing; none for a count that is
not positive. -/
def readExtents (count : Int) (extents : Option (List Int64)) : List Int64 :=
  match extents with
  | none => []
  | some extents => extents.take count.toNat

/-- A call of an unchecked entry point. -/
inductive Call where
  /-- Any rank: a count, and extents of which that many are read. -/
  | general (count : Int) (extents : Option (List Int64))
  /-- One of the ranks with an entry point of their own. -/
  | fixed (extents : List Int64) (rank_pos : 0 < extents.length)
    (rank_le : extents.length ≤ maxFixedRank)

namespace Call

/-- Name of the entry point. -/
def entry : Call → String
  | general .. => "allocate_n"
  | fixed extents .. => "allocate" ++ extents.length.repr

/-- Arguments that are reported, by name. -/
def arguments : Call → List (String × Int)
  | general count _ => [("num_dim", count)]
  | fixed extents .. =>
    (extents.zipIdx 1).map fun (extent, position) => ("dim" ++ position.repr, extent.toInt)

/-- Extents that are used. -/
def extents : Call → List Int64
  | general count extents => readExtents count extents
  | fixed extents .. => extents

/-- Shape that is built. -/
def shape (c : Call) : Shape := Shape.reinterpret c.extents

/-- Reports the call and builds the array. -/
def run (c : Call) (h : Heap) : Logged (Except Fault (Ref × Heap)) := do
  Logged.report (.called c.entry c.arguments)
  return (Heap.build c.shape).run h

@[simp] theorem events_run (c : Call) (h : Heap) :
    (c.run h).events = [.called c.entry c.arguments] := rfl

@[simp] theorem result_run (c : Call) (h : Heap) :
    (c.run h).result = (Heap.build c.shape).run h := rfl

end Call

/-- Answers of the checked entry point. -/
inductive Status where
  | ok
  /-- A list or the place for the result is missing, or the count is negative. -/
  | invalidArgument
  /-- No dimensions, or too many. -/
  | rankOutOfRange
  | negativeExtent
  /-- The cells overflow or are too many. -/
  | tooLarge
  | stopped
  deriving DecidableEq

namespace Status

/-- All answers, in the order of their numbers. -/
def all : List Status :=
  [ok, invalidArgument, rankOutOfRange, negativeExtent, tooLarge, stopped]

/-- The number that stands for an answer: zero for success, negative for all else. -/
def code : Status → Int
  | ok => 0
  | invalidArgument => -1
  | rankOutOfRange => -2
  | negativeExtent => -3
  | tooLarge => -4
  | stopped => -5

/-- The answer to a request that was turned down. -/
def ofRejection : Rejection → Status
  | .noExtents => rankOutOfRange
  | .rankAboveLimit .. => rankOutOfRange
  | .negativeExtent .. => negativeExtent
  | .countOverflow => tooLarge
  | .tooManyCells .. => tooLarge

/-- The answer to a request that came to nothing. -/
def ofFailure : Failure → Status
  | .rejected reason => ofRejection reason
  | .stopped _ => stopped

end Status

/-- Result of the checked entry point. -/
structure Answer where
  status : Status
  /-- The array, if the place for the result was written. -/
  array : Option Ref
  heap : Heap

/-- Whether the arguments of the checked entry point can be read: there is a place for
the result, the count is not negative, and with a positive count there is a list. -/
def readable (count : Int) (extents : Option (List Int64)) (hasPlace : Bool) : Bool :=
  hasPlace && 0 ≤ count && (count ≤ 0 || extents.isSome)

/-- The checked entry point.  Missing limits stand for the standard ones. -/
def tryAllocate (count : Int) (extents : Option (List Int64)) (limits : Option Limits)
    (hasPlace : Bool) (h : Heap) : Logged Answer := do
  if !readable count extents hasPlace then
    return ⟨.invalidArgument, none, h⟩
  match ← Heap.tryBuild (limits.getD .standard) (readExtents count extents) h with
  | .ok (array, h') => return ⟨.ok, some array, h'⟩
  | .error failure => return ⟨.ofFailure failure, none, h⟩

end ArrayLayout
