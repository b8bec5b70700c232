/-
Assertions about freshly built arrays.

`Tree.assertZero` stops at the first leaf that holds a number other than zero, and
`Tree.assertZeroedShape` looks at the shape before it looks at the numbers.
-/
import ArrayLayout.Fault
import ArrayLayout.Tree.Measure

namespace ArrayLayout

/-- Whether all numbers of a leaf are zero. -/
def Leaf.isZero (l : Leaf) : Bool := l.payload.all (· == 0)

namespace Tree

/-- Asserts that all numbers are zero. -/
def assertZero (t : Tree) : Except Fault Unit :=
  match t.leaves.find? fun l => !l.isZero with
  | none => .ok ()
  | some l => .error (.nonzeroPayload l.payload)

/-- Asserts that a tree has the given shape and holds only zeros. -/
def assertZeroedShape (t : Tree) (wanted : Shape) : Except Fault Unit :=
  if t.conforms wanted then t.assertZero else .error (.shapeMismatch t.shape wanted)

/-- The assertion on numbers passes exactly when every leaf is zero. -/
theorem assertZero_eq_ok_iff {t : Tree} :
    t.assertZero = .ok () ↔ ∀ l ∈ t.leaves, l.isZero = true := by
  rw [assertZero]
  split
  · rename_i h
    simpa using h
  · rename_i l h
    constructor
    · intro contra
      cases contra
    · intro all
      have found := List.find?_some h
      have zero := all l (List.mem_of_find?_eq_some h)
      simp [zero] at found

end Tree

end ArrayLayout
