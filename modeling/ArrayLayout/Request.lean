/-
Checked requests.

A checked builder first decides on the request, reports the decision, and only then
builds.  `Limits.decide` is that first half, for a builder whose slots have a given
width.  What can come back instead of an array is a `Failure`: a rejection, or a fault
of the builder behind it.
-/
import ArrayLayout.Event
import ArrayLayout.Fault
import ArrayLayout.Limits

namespace ArrayLayout

/-- What comes back from a checked builder that does not build. -/
inductive Failure where
  | rejected (reason : Rejection)
  | stopped (fault : Fault)
  deriving DecidableEq

/-- The text shown for a failure. -/
def Failure.message : Failure → String
  | rejected reason => reason.message
  | stopped fault => fault.message

/-- Decides on a request under the limits of a builder whose slots take `slotBytes`
bytes, and reports the decision. -/
def Limits.decide (limits : Limits) (slotBytes : Nat) (request : List Int64) :
    Logged (Except Rejection Shape) :=
  match (limits.clampTo slotBytes).accept request with
  | .error reason => do
    Logged.report (.rejected request.length reason)
    return .error reason
  | .ok (shape, footprint) => do
    Logged.report (.allocating shape footprint.arrays footprint.cells)
    return .ok shape

/-- Decides on a request, and builds what it asks for if it is admitted. -/
def Limits.buildWith {α : Type} (limits : Limits) (slotBytes : Nat)
    (build : Shape → Except Fault α) (request : List Int64) : Logged (Except Failure α) := do
  match ← limits.decide slotBytes request with
  | .error reason => return .error (.rejected reason)
  | .ok shape => return (build shape).mapError .stopped

end ArrayLayout
