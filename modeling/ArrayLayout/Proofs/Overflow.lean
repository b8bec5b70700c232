/-
When a count leaves the range of a word.

Five counts are kept in words while a shape is tallied.  The cells are the largest of
them: there are never more arrays than cells, and the arrays one level further down are
elements of this level, each with a cell of its own.  So a tally stops only because of
cells, and only if the exact number of cells is too large for a word.

* `cellsByLevel` — cells of a nested array, one depth after the other;
* `Footprint.cells_exact` — the exact count in that form;
* `Footprint.lt_of_of?_eq_some` — every count of a footprint fits in a word;
* `Footprint.tally_eq_error` — a tally that stops does so at a count of cells;
* `Footprint.of?_eq_none_iff` — there is no footprint exactly when the cells do not fit.
-/
import ArrayLayout.Proofs.Count
import Mathlib.Algebra.BigOperators.Ring.Finset

namespace ArrayLayout

/-- Cells of a nested array, depth by depth: as many arrays as the extents above multiply
to, and in each of them a cell for every element and one for the length. -/
def cellsByLevel (extents : List Nat) : Nat :=
  ∑ depth ∈ Finset.range extents.length,
    (extents.take depth).prod * (extents.getD depth 0 + 1)

theorem cellsByLevel_cons (extent : Nat) (inner : List Nat) :
    cellsByLevel (extent :: inner) = extent + 1 + extent * cellsByLevel inner := by
  have below (depth : Nat) : ((extent :: inner).take (depth + 1)).prod *
      ((extent :: inner).getD (depth + 1) 0 + 1) =
        extent * ((inner.take depth).prod * (inner.getD depth 0 + 1)) := by
    simp [Nat.mul_assoc]
  rw [cellsByLevel, List.length_cons, Finset.sum_range_succ',
    Finset.sum_congr rfl fun k _ => below k, ← Finset.mul_sum, Nat.add_comm]
  simp [cellsByLevel]

namespace Footprint

theorem cells_exact (s : Shape) : (exact s).cells = cellsByLevel (s.map UInt64.toNat) := by
  induction s with
  | nil => rfl
  | cons extent inner ih => rw [exact_cons, List.map_cons, cellsByLevel_cons, ← ih]

theorem fit_eq_error_iff {n : Nat} {count reported : Overflow} :
    fit n count = .error reported ↔ wordLimit ≤ n ∧ count = reported := by
  unfold fit
  cases run : checked n with
  | none => simpa using fun _ => checked_eq_none_iff.1 run
  | some m =>
    obtain ⟨bound, -⟩ := checked_eq_some_iff.1 run
    simp only [reduceCtorEq, false_iff]
    omega

/-! ### Counts that fit -/

theorem lt_of_tallyFrom_eq_ok {above f : Footprint} {width : Nat} {s : Shape}
    (counted : tallyFrom above width s = .ok f) (arrays : above.arrays < wordLimit)
    (cells : above.cells < wordLimit) (fits : width < wordLimit) :
    f.arrays < wordLimit ∧ f.cells < wordLimit ∧ f.elements < wordLimit := by
  induction s generalizing above width with
  | nil =>
    simp only [tallyFrom, Except.ok.injEq] at counted
    subst counted
    exact ⟨arrays, cells, fits⟩
  | cons extent inner ih =>
    obtain ⟨arrays', -, -, cells', fits', rest⟩ := tallyFrom_cons_eq_ok_iff.1 counted
    exact ih rest arrays' cells' fits'

/-- Every count of a footprint fits in a word. -/
theorem lt_of_of?_eq_some {s : Shape} {f : Footprint} (counted : of? s = some f)
    (nonempty : s ≠ []) :
    f.arrays < wordLimit ∧ f.cells < wordLimit ∧ f.elements < wordLimit :=
  lt_of_tallyFrom_eq_ok (tallyFrom_of_of? counted nonempty) (by decide) (by decide) (by decide)

/-! ### Counts that do not fit -/

/-- With no more arrays than cells, here and one level further down, the first count to
overflow is one of cells, and the exact number of cells is too large as well. -/
theorem tallyFrom_eq_error {above : Footprint} {width : Nat} {s : Shape} {count : Overflow}
    (stopped : tallyFrom above width s = .error count)
    (fewer : above.arrays + width ≤ above.cells + 1) (few : above.arrays + width < wordLimit)
    (words : ∀ e ∈ s, e.toNat < wordLimit - 1) :
    (count = .levelCells ∨ count = .cells) ∧
      wordLimit ≤ above.cells + width * (exact s).cells := by
  induction s generalizing above width with
  | nil => simp [tallyFrom] at stopped
  | cons extent inner ih =>
    have word := words extent List.mem_cons_self
    have level : width * (extent.toNat + 1) = width * extent.toNat + width := Nat.mul_succ ..
    -- the whole has at least the cells of this level, and of the levels below it
    have whole : width * (exact (extent :: inner)).cells =
        width * (extent.toNat + 1) + width * extent.toNat * (exact inner).cells := by
      rw [exact_cons, Nat.mul_assoc, ← Nat.mul_add]
    simp only [tallyFrom, except_bind_eq_error_iff, fit_eq_error_iff, fit_eq_ok_iff] at stopped
    rcases stopped with ⟨large, -⟩ | ⟨_, ⟨-, rfl⟩, stopped⟩
    · omega
    rcases stopped with ⟨large, -⟩ | ⟨_, ⟨-, rfl⟩, stopped⟩
    · omega
    rcases stopped with ⟨large, rfl⟩ | ⟨_, ⟨-, rfl⟩, stopped⟩
    · exact ⟨.inl rfl, by omega⟩
    rcases stopped with ⟨large, rfl⟩ | ⟨_, ⟨cells, rfl⟩, stopped⟩
    · exact ⟨.inr rfl, by omega⟩
    rcases stopped with ⟨large, -⟩ | ⟨_, ⟨-, rfl⟩, stopped⟩
    · omega
    have fewer' : above.arrays + width + width * extent.toNat ≤
        above.cells + width * (extent.toNat + 1) + 1 := by
      omega
    have few' : above.arrays + width + width * extent.toNat < wordLimit := by
      rcases Nat.eq_zero_or_pos width with rfl | pos
      · simpa using few
      · omega
    have deeper := ih stopped fewer' few' fun e member => words e (List.mem_cons_of_mem _ member)
    rw [whole, ← Nat.add_assoc]
    exact deeper

/-- A shape of extents that have cell counts overflows at a count of cells or not at all. -/
theorem tally_eq_error {s : Shape} {count : Overflow} (stopped : tally s = .error count)
    (words : ∀ e ∈ s, e.toNat < wordLimit - 1) :
    (count = .levelCells ∨ count = .cells) ∧ wordLimit ≤ (exact s).cells := by
  have nonempty : s ≠ [] := by
    rintro rfl
    cases stopped
  rw [tally_eq_tallyFrom nonempty] at stopped
  simpa using tallyFrom_eq_error stopped (by decide) (by decide) words

theorem of?_eq_none_iff {s : Shape} (nonempty : s ≠ []) (words : ∀ e ∈ s, e.toNat < wordLimit - 1) :
    of? s = none ↔ wordLimit ≤ (exact s).cells := by
  constructor
  · intro absent
    cases run : tally s with
    | error count => exact (tally_eq_error run words).2
    | ok f => simp [of?, run, Except.toOption] at absent
  · intro large
    by_contra present
    obtain ⟨f, counted⟩ := Option.ne_none_iff_exists'.1 present
    have fits := (lt_of_of?_eq_some counted nonempty).2.1
    rw [of?_eq_some counted nonempty] at fits
    omega

end Footprint

end ArrayLayout
