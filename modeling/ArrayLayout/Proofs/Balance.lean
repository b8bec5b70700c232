/-
The balance of a tally.

A tally comes to each level with three counts: the arrays and the cells above it, and the number of
arrays that the level itself has.  Every array above has a cell for its length, and but for the
outermost one every array, also of this level, is an element of an array above and has a cell
there.  So the cells above, and one more for the outermost array, are twice the arrays above and
the arrays of this level.

That leaves little room for a count to overflow.  The arrays down to this level are no more than the
cells above it, unless there is nothing above, and the arrays of the next level are no more than the
cells of this one.  Only cells can be the first to leave the range of a word.

* `Footprint.Balanced` — the equation, and `Footprint.Balanced.level` — a level keeps it;
* `Footprint.Balanced.tallyFrom` — so does a whole tally, and `Footprint.balanced_of_of?` — every
  footprint of a shape is balanced;
* `Footprint.AtLevel` — the counts with which a tally comes to a level;
* `Footprint.AtLevel.arrays_lt`, `Footprint.width_lt_of_cells_lt` — what cannot overflow there;
* `Footprint.overflow_only_of_cells` — which shapes have no footprint, and for what reason.
-/
import ArrayLayout.Proofs.EmptyLevels

namespace ArrayLayout

namespace Footprint

/-- There is a cell for every element, and two for every array: one for its length, and one that
refers to it.  Nothing refers to the outermost array. -/
def Balanced (f : Footprint) : Prop := f.cells + 1 = 2 * f.arrays + f.elements

variable {above f : Footprint} {width k : Nat} {s : Shape}

/-- Before the first level there is only the outermost array, which is still to be counted. -/
theorem balanced_root : Balanced { (0 : Footprint) with elements := 1 } := rfl

/-- Each array of a level has a cell for its length, and one for each of its elements, which are
the arrays of the next level. -/
theorem Balanced.level (balanced : f.Balanced) (extent : Nat) :
    Balanced ⟨f.arrays + f.elements, f.cells + f.elements * (extent + 1), f.elements * extent⟩ := by
  have before : f.cells + 1 = 2 * f.arrays + f.elements := balanced
  show f.cells + f.elements * (extent + 1) + 1 =
    2 * (f.arrays + f.elements) + f.elements * extent
  rw [Nat.mul_succ]
  omega

/-- A tally that starts balanced ends balanced. -/
theorem Balanced.tallyFrom (balanced : Balanced { above with elements := width })
    (counted : tallyFrom above width s = .ok f) : f.Balanced := by
  induction s generalizing above width with
  | nil =>
    cases counted
    exact balanced
  | cons extent inner ih =>
    obtain ⟨-, -, -, -, -, rest⟩ := tallyFrom_cons_eq_ok_iff.1 counted
    exact ih (balanced.level extent.toNat) rest

theorem balanced_of_of? (counted : of? s = some f) (nonempty : s ≠ []) : f.Balanced :=
  balanced_root.tallyFrom (tallyFrom_of_of? counted nonempty)

/-! ### Level by level -/

/-- The tally of a shape comes to level `k` with the counts `f`.  The arrays of that level, which
are not counted yet, stand in the place of the elements. -/
def AtLevel (s : Shape) (k : Nat) (f : Footprint) : Prop := tallyFrom 0 1 (s.take k) = .ok f

/-- All that is left to do is to tally the inner levels from there. -/
theorem AtLevel.rest (here : AtLevel s k f) :
    tallyFrom 0 1 s = tallyFrom f f.elements (s.drop k) := by
  have parts := tallyFrom_append 0 1 (s.take k) (s.drop k)
  rw [List.take_append_drop, show tallyFrom 0 1 (s.take k) = .ok f from here] at parts
  exact parts

theorem AtLevel.balanced (here : AtLevel s k f) : f.Balanced := balanced_root.tallyFrom here

theorem AtLevel.lt (here : AtLevel s k f) :
    f.arrays < wordLimit ∧ f.cells < wordLimit ∧ f.elements < wordLimit :=
  lt_of_tallyFrom_eq_ok here (by decide) (by decide) (by decide)

/-- The arrays of a level can be added to those above it. -/
theorem AtLevel.arrays_lt (here : AtLevel s k f) : f.arrays + f.elements < wordLimit := by
  have balanced : f.cells + 1 = 2 * f.arrays + f.elements := here.balanced
  obtain ⟨-, cells, width⟩ := here.lt
  -- the outermost array has nothing above it, and is the only one of its level
  rcases Nat.eq_zero_or_pos f.arrays with outermost | above
  · omega
  · omega

/-- The arrays of the next level can be counted if the cells of this one can. -/
theorem width_lt_of_cells_lt {extent : Nat}
    (cells : f.cells + f.elements * (extent + 1) < wordLimit) :
    f.elements * extent < wordLimit := by
  have fewer : f.elements * extent ≤ f.elements * (extent + 1) :=
    Nat.mul_le_mul_left _ (Nat.le_succ extent)
  omega

/-- A shape whose extents all have a cell count has no footprint exactly if a word cannot count its
cells.  It is at a count of cells that its tally stops.  At every level that a tally comes to, the
count of arrays fits in a word, and the number of arrays of the next level does if the cells down
to this one do. -/
theorem overflow_only_of_cells (nonempty : s ≠ []) (words : ∀ e ∈ s, e ≠ 0xFFFF_FFFF_FFFF_FFFF) :
    (of? s = none ↔ 2 ^ 64 ≤ cellsByLevel (s.map UInt64.toNat)) ∧
    (∀ count, tally s = .error count → count = .levelCells ∨ count = .cells) ∧
    ∀ k f, AtLevel s k f → tally s = tallyFrom f f.elements (s.drop k) ∧
      ∀ e, s[k]? = some e → f.arrays + f.elements < 2 ^ 64 ∧
        (f.cells + f.elements * (e.toNat + 1) < 2 ^ 64 → f.elements * e.toNat < 2 ^ 64) := by
  have counted (e : UInt64) (used : e ∈ s) : e.toNat < wordLimit - 1 :=
    toNat_lt_of_ne_largest (words e used)
  refine ⟨?_, ?_, ?_⟩
  · rw [of?_eq_none_iff nonempty counted, cells_exact]
    rfl
  · intro count stopped
    exact (tally_eq_error stopped counted).1
  · intro k f here
    refine ⟨?_, fun e _ => ⟨here.arrays_lt, width_lt_of_cells_lt⟩⟩
    rw [tally_eq_tallyFrom nonempty, here.rest]

/-- A word could count these rows, and their numbers as well, but not the cells. -/
theorem overflow_only_of_cells_wide_rows :
    let s : Shape := [0x1_0000_0000, 0xFFFF_FFFF]
    s ≠ [] ∧ (∀ e ∈ s, e ≠ 0xFFFF_FFFF_FFFF_FFFF) ∧ of? s = none ∧
      tally s = .error .levelCells ∧ (exact s).arrays < 2 ^ 64 ∧ (exact s).elements < 2 ^ 64 := by
  intro s
  have nonempty : s ≠ [] := List.cons_ne_nil _ _
  have words : ∀ e ∈ s, e ≠ 0xFFFF_FFFF_FFFF_FFFF := by simp [s]
  have cells : 2 ^ 64 ≤ cellsByLevel (s.map UInt64.toNat) := by
    rw [← cells_exact]
    decide
  exact ⟨nonempty, words, (overflow_only_of_cells nonempty words).1.2 cells, rfl, by decide,
    by decide⟩

end Footprint

end ArrayLayout
