/-
Answers to the steps of a session.

Each step gives one answer.  A step that fails answers with the failure and changes
nothing; so does a step on a name that nothing has, or one that asks memory for more than
is there.
-/
import ArrayLayout.Heap.Root
import ArrayLayout.Request

namespace ArrayLayout

/-- The answer to one step. -/
inductive Reply where
  | failed (failure : Failure)
  | unknown (name : String)
  /-- Memory cannot be read or written as the step asks. -/
  | unreadable
  | listing (tree : Tree)
  /-- A nested array, to be reported with shape and footprint. -/
  | report (tree : Tree)
  | equal (verdict : Bool)
  /-- A number, if there is one at the path. -/
  | number (value : Option UInt64)
  /-- The number that was overwritten, if there was one, and the nested array after that. -/
  | stored (old : Option UInt64) (tree : Tree)
  /-- A leaf and its numbers at the indices asked for, if there is one at the path. -/
  | leaf (found : Option (Leaf × List (Option UInt64)))
  /-- An array, to be described, if there is one at the path. -/
  | array (found : Option Tree)
  | conforming (verdict : Bool)
  /-- Whether a part was replaced, and the nested array after that. -/
  | grafted (done : Bool) (tree : Tree)
  | holds
  /-- Leaves of each nested array, and how many different ones there are over all. -/
  | leafCounts (counts : List Nat) (distinct : Nat)
  | view (view : Root.View)
  | length (length : UInt64)
  | cells (array : Leaf)
  /-- Sub-arrays of an array in memory, and how many different ones there are. -/
  | shared (children distinct : Nat)
  /-- A name was given up, and its nested array was given back to memory or left there. -/
  | released (givenBack : Bool)

end ArrayLayout
