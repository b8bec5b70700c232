/-
What the cells of a tree are for.

Every array has one cell for its length.  All other cells are elements: numbers in the leaves, and
references to sub-arrays everywhere else.  Since every array but the outermost one is referred to
exactly once, arrays and numbers alone determine how many cells there are, whether the tree is even
or not.  For shapes the same equation comes out of a tally, level by level.

* `Tree.references` — references to sub-arrays anywhere in a tree;
* `Tree.size_eq` — there is one for every array but the outermost;
* `Tree.cells_eq` — lengths, references and numbers are all the cells that there are;
* `Tree.cells_accounted` — what that says of the counts of trees and shapes.
-/
import ArrayLayout.Proofs.Balance
import ArrayLayout.Proofs.Preorder
import ArrayLayout.Proofs.Replacement

namespace ArrayLayout

namespace Tree

/-- Number of references to sub-arrays, in all arrays of a tree. -/
def references : Tree → Nat := fold (fun _ => 0) (fun _ below => below.length + below.sum)

@[simp] theorem references_leaf (l : Leaf) : (leaf l).references = 0 := rfl

@[simp] theorem references_interior (n : UInt64) (ts : List Tree) :
    (interior n ts).references = ts.length + (ts.map references).sum := by
  rw [references, fold_interior, List.length_map]

/-- Every array is referred to once, except for the outermost one. -/
theorem size_eq (t : Tree) : t.size = t.references + 1 := by
  induction t with
  | leaf l => rfl
  | interior n ts ih =>
    have parts : (ts.map size).sum = (ts.map references).sum + ts.length := by
      rw [List.map_congr_left ih, List.sum_map_add]
      simp
    rw [size_interior, references_interior, parts]
    omega

/-- A cell of a tree with true lengths holds a length, a reference or a number. -/
theorem cells_eq {t : Tree} (sound : t.WellFormed) :
    t.footprint.cells = t.size + t.references + t.footprint.elements := by
  induction t with
  | leaf l =>
    show l.length.toNat + 1 = 1 + 0 + l.length.toNat
    omega
  | interior n ts ih =>
    obtain ⟨count, sounds⟩ := (wellFormed_interior n ts).1 sound
    have parts : (ts.map fun t => t.footprint.cells).sum =
        (ts.map size).sum + (ts.map references).sum +
          (ts.map fun t => t.footprint.elements).sum := by
      rw [← List.sum_map_add, ← List.sum_map_add]
      exact congrArg List.sum (List.map_congr_left fun t part => ih t part (sounds t part))
    have cells : (interior n ts).footprint.cells =
        n.toNat + 1 + (ts.map fun t => t.footprint.cells).sum := by
      rw [footprint_interior, Footprint.cells_add, Footprint.cells_sum, List.map_map]
      rfl
    have elements : (interior n ts).footprint.elements =
        (ts.map fun t => t.footprint.elements).sum := by
      rw [footprint_interior, Footprint.elements_add, Footprint.elements_sum, List.map_map]
      exact Nat.zero_add _
    rw [cells, elements, parts, size_interior, references_interior]
    omega

theorem balanced_footprint {t : Tree} (sound : t.WellFormed) : t.footprint.Balanced := by
  have cells := cells_eq sound
  have arrays : t.footprint.arrays = t.references + 1 := size_eq t
  show t.footprint.cells + 1 = 2 * t.footprint.arrays + t.footprint.elements
  rw [cells, size_eq t, arrays]
  omega

/-- What a walk finds on a tree accounts for every cell: each array has one for its length, each but
the outermost has one that refers to it, and the others are the numbers.  So cells, arrays and
numbers satisfy one equation, for every tree with true lengths whose cells a word can count, and
for every shape that has a footprint. -/
theorem cells_accounted :
    (∀ t : Tree, t.WellFormed → t.footprint.cells < 2 ^ 64 →
      ∃ f, t.countFrom? 0 = some f ∧ f.arrays = t.references + 1 ∧
        f.cells = f.arrays + t.references + f.elements ∧
        f.cells + 1 = 2 * f.arrays + f.elements) ∧
    ∀ (s : Shape) (f : Footprint), s ≠ [] → Footprint.of? s = some f →
      f.cells + 1 = 2 * f.arrays + f.elements := by
  constructor
  · intro t sound few
    exact ⟨_, countFrom?_of_cells_lt few, size_eq t, cells_eq sound, balanced_footprint sound⟩
  · intro s f nonempty counted
    exact Footprint.balanced_of_of? counted nonempty

/-- A leaf next to an empty array of arrays, and a row. -/
theorem cells_accounted_uneven :
    let uneven := interior 2 [.leaf ⟨[2, 7, 7]⟩, .interior 2 [.interior 0 [], .leaf ⟨[1, 5]⟩]]
    uneven.WellFormed ∧ uneven.footprint.cells < 2 ^ 64 ∧ uneven.references = 4 ∧
      (∃ f, uneven.countFrom? 0 = some f ∧ f.arrays = 5 ∧ f.cells + 1 = 2 * f.arrays + f.elements) ∧
      Footprint.of? [2, 0, 7] = some ⟨3, 5, 0⟩ ∧ 5 + 1 = 2 * 3 + 0 := by
  intro uneven
  have sound : uneven.WellFormed := by
    simp [uneven, Leaf.WellFormed]
  have few : uneven.footprint.cells < 2 ^ 64 := by
    show 12 < 2 ^ 64
    decide
  obtain ⟨f, counted, arrays, -, equation⟩ := cells_accounted.1 uneven sound few
  exact ⟨sound, few, rfl, ⟨f, counted, arrays, equation⟩, rfl,
    cells_accounted.2 [2, 0, 7] ⟨3, 5, 0⟩ (List.cons_ne_nil _ _) rfl⟩

end Tree

end ArrayLayout
