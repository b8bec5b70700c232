/-
Shapes: the extents of a nested array, outermost dimension first.

A shape fixes a nested array completely.  Its last extent counts numbers, every
other one counts sub-arrays.  Besides the size of a dimension the module holds
the three written forms of a shape:

* `Shape.text` — `[2x1x3]`, for messages and log events;
* `Shape.listText` — `[2, 1, 3]`, a plain list of extents;
* `Shape.inspect` — the list form under the name of the type.
-/

namespace ArrayLayout

/-- Extents of a nested array, outermost dimension first. -/
abbrev Shape := List UInt64

/-- Highest rank with a constructor of its own. -/
def maxFixedRank : Nat := 7

namespace Shape

/-- Number of dimensions. -/
def rank (s : Shape) : Nat := s.length

/-- Extent of the dimension at `depth`, if there is one. -/
def extent? (s : Shape) (depth : Nat) : Option UInt64 := s[depth]?

/-- Whether `depth` is the innermost dimension, the one that holds numbers. -/
def isLeafDepth (s : Shape) (depth : Nat) : Bool := depth + 1 == s.rank

/-- Extents in decimal, joined by a separator. -/
def joined (s : Shape) (separator : String) : String :=
  separator.intercalate (s.map fun e => e.toNat.repr)

/-- The short form, `[2x1x3]`. -/
def text (s : Shape) : String := "[" ++ s.joined "x" ++ "]"

/-- The list form, `[2, 1, 3]`. -/
def listText (s : Shape) : String := "[" ++ s.joined ", " ++ "]"

/-- The list form under the name that the type has for its users. -/
def inspect (s : Shape) : String := "Dims(" ++ s.listText ++ ")"

/-- Signed extents taken as words: a negative one becomes a very large one. -/
def reinterpret (request : List Int64) : Shape := request.map Int64.toUInt64

@[simp] theorem length_reinterpret (request : List Int64) :
    (reinterpret request).length = request.length := by
  simp [reinterpret]

end Shape

end ArrayLayout
