/-
Shapes for measuring the builders.

Each one loads a different part of the work: zeroing one large leaf, allocating many
small leaves, going down many dimensions.
-/
import ArrayLayout.Footprint

namespace ArrayLayout

namespace Sample

/-- One leaf of a million elements. -/
def wideLeaf : Shape := [1048576]

/-- A square of two dimensions. -/
def matrix : Shape := [256, 256]

/-- Sixteen thousand elements in seven dimensions. -/
def deep : Shape := List.replicate 7 4

/-- All samples by name. -/
def all : List (String × Shape) := [("wide_leaf", wideLeaf), ("matrix", matrix), ("deep", deep)]

end Sample

end ArrayLayout
