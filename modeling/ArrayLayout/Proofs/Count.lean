/-
Checked counts are exact counts.

`Footprint.of?` goes down the dimensions and keeps every running count in a word;
`Footprint.exact` counts without bound:

* `Footprint.of?_eq_some` — counts that all fit are the exact ones;
* `Footprint.lt_cells_exact`, `Footprint.cells_exact_le` — no array that is built has
  more cells than the whole, so a bound on the total is a bound on every single array;
* `Footprint.tallyFrom_cons_eq_ok_iff` — what one level of a tally takes, and passes on;
* `Footprint.sum_replicate`, `Footprint.count_sum` — counts of several things together.
-/
import ArrayLayout.Footprint
import Mathlib.Algebra.BigOperators.Intervals
import Mathlib.Algebra.Order.BigOperators.Group.List

namespace ArrayLayout

/-- A computation in two parts succeeds exactly when both parts do. -/
theorem except_bind_eq_ok_iff {ε α β : Type} {x : Except ε α} {f : α → Except ε β} {b : β} :
    (x >>= f) = .ok b ↔ ∃ a, x = .ok a ∧ f a = .ok b := by
  cases x with
  | error e => simp [bind, Except.bind]
  | ok a => simp [bind, Except.bind]

/-- A computation in two parts fails when the first does, or else the second. -/
theorem except_bind_eq_error_iff {ε α β : Type} {x : Except ε α} {f : α → Except ε β} {e : ε} :
    (x >>= f) = .error e ↔ x = .error e ∨ ∃ a, x = .ok a ∧ f a = .error e := by
  cases x with
  | error e' => simp [bind, Except.bind]
  | ok a => simp [bind, Except.bind]

/-- An extent that is not zero has a first element. -/
theorem exists_toNat_eq_succ {extent : UInt64} (elements : extent ≠ 0) :
    ∃ count, extent.toNat = count + 1 :=
  Nat.exists_eq_succ_of_ne_zero fun zero => elements (UInt64.toNat_inj.1 (by simpa using zero))

namespace Footprint

theorem fit_eq_ok_iff {n m : Nat} {count : Overflow} :
    fit n count = .ok m ↔ n < wordLimit ∧ n = m := by
  unfold fit
  cases run : checked n with
  | none =>
    have large := checked_eq_none_iff.1 run
    simp only [reduceCtorEq, false_iff]
    omega
  | some k =>
    obtain ⟨bound, rfl⟩ := checked_eq_some_iff.1 run
    simp [bound]

@[simp] theorem exact_nil : exact [] = ⟨0, 0, 1⟩ := rfl

theorem exact_cons (extent : UInt64) (inner : Shape) :
    exact (extent :: inner) =
      ⟨1 + extent.toNat * (exact inner).arrays,
        extent.toNat + 1 + extent.toNat * (exact inner).cells,
        extent.toNat * (exact inner).elements⟩ := rfl

/-- A level is passed exactly if all five counts made at it fit in words; the tally goes on with
three of them. -/
theorem tallyFrom_cons_eq_ok_iff {above f : Footprint} {width : Nat} {extent : UInt64}
    {inner : Shape} :
    tallyFrom above width (extent :: inner) = .ok f ↔
      above.arrays + width < wordLimit ∧ extent.toNat + 1 < wordLimit ∧
      width * (extent.toNat + 1) < wordLimit ∧
      above.cells + width * (extent.toNat + 1) < wordLimit ∧
      width * extent.toNat < wordLimit ∧
      tallyFrom ⟨above.arrays + width, above.cells + width * (extent.toNat + 1), 0⟩
        (width * extent.toNat) inner = .ok f := by
  simp only [tallyFrom, except_bind_eq_ok_iff, fit_eq_ok_iff]
  constructor
  · rintro ⟨_, ⟨arrays, rfl⟩, _, ⟨own, rfl⟩, _, ⟨level, rfl⟩, _, ⟨cells, rfl⟩, _, ⟨below, rfl⟩,
      rest⟩
    exact ⟨arrays, own, level, cells, below, rest⟩
  · rintro ⟨arrays, own, level, cells, below, rest⟩
    exact ⟨_, ⟨arrays, rfl⟩, _, ⟨own, rfl⟩, _, ⟨level, rfl⟩, _, ⟨cells, rfl⟩, _, ⟨below, rfl⟩,
      rest⟩

/-- Counting the levels from one depth on adds, for each of the `width` arrays of that
depth, its exact cost to the counts above. -/
theorem tallyFrom_eq_ok {above f : Footprint} {width : Nat} {s : Shape}
    (counted : tallyFrom above width s = .ok f) :
    f = ⟨above.arrays + width * (exact s).arrays, above.cells + width * (exact s).cells,
      width * (exact s).elements⟩ := by
  -- the counts above and the width change from level to level
  induction s generalizing above width with
  | nil =>
    simp only [tallyFrom, Except.ok.injEq] at counted
    simp [← counted]
  | cons extent inner ih =>
    obtain ⟨-, -, -, -, -, rest⟩ := tallyFrom_cons_eq_ok_iff.1 counted
    rw [ih rest, exact_cons]
    ext
    · show above.arrays + width + width * extent.toNat * _ = above.arrays + width * (1 + _)
      rw [Nat.mul_add, Nat.mul_one, Nat.add_assoc, Nat.mul_assoc]
    · show above.cells + width * (extent.toNat + 1) + width * extent.toNat * _ =
        above.cells + width * (extent.toNat + 1 + _)
      rw [Nat.mul_add width (extent.toNat + 1), Nat.add_assoc, Nat.mul_assoc]
    · exact Nat.mul_assoc _ _ _

/-- A tally starts with one array and no counts above it. -/
theorem tally_eq_tallyFrom {s : Shape} (nonempty : s ≠ []) : tally s = tallyFrom 0 1 s := by
  cases s with
  | nil => exact absurd rfl nonempty
  | cons extent inner => rfl

theorem tallyFrom_of_of? {s : Shape} {f : Footprint} (counted : of? s = some f)
    (nonempty : s ≠ []) : tallyFrom 0 1 s = .ok f := by
  rw [← tally_eq_tallyFrom nonempty]
  cases run : tally s with
  | error count => simp [of?, run, Except.toOption] at counted
  | ok g =>
    simp only [of?, run, Except.toOption, Option.some.injEq] at counted
    rw [counted]

/-- A footprint that fits in words is the exact one. -/
theorem of?_eq_some {s : Shape} {f : Footprint} (counted : of? s = some f) (nonempty : s ≠ []) :
    f = exact s := by
  rw [tallyFrom_eq_ok (tallyFrom_of_of? counted nonempty)]
  ext <;> simp

/-- A nested array has at least the cells of its outermost array. -/
theorem lt_cells_exact (extent : UInt64) (inner : Shape) :
    extent.toNat < (exact (extent :: inner)).cells := by
  rw [exact_cons]
  show extent.toNat < extent.toNat + 1 + _
  omega

/-- A nested array has at least the cells of any of its sub-arrays.  Without elements
there are none, and then `inner` may ask for any number of cells. -/
theorem cells_exact_le {extent : UInt64} (inner : Shape) (elements : extent ≠ 0) :
    (exact inner).cells ≤ (exact (extent :: inner)).cells := by
  obtain ⟨count, first⟩ := exists_toNat_eq_succ elements
  have pos : 0 < extent.toNat := by omega
  have grow := Nat.le_mul_of_pos_left (exact inner).cells pos
  rw [exact_cons]
  show (exact inner).cells ≤ extent.toNat + 1 + extent.toNat * (exact inner).cells
  omega

/-! ### Sums of footprints -/

theorem sum_replicate (n : Nat) (f : Footprint) :
    (List.replicate n f).sum = ⟨n * f.arrays, n * f.cells, n * f.elements⟩ := by
  induction n with
  | zero =>
    ext <;> simp
  | succ n ih =>
    rw [List.replicate_succ, List.sum_cons, ih]
    ext <;> simp [Nat.succ_mul, Nat.add_comm]

/-- A count of several things together is the sum of their counts. -/
theorem count_sum {count : Footprint → Nat} (zero : count 0 = 0)
    (add : ∀ f g, count (f + g) = count f + count g) (fs : List Footprint) :
    count fs.sum = (fs.map count).sum := by
  induction fs with
  | nil => exact zero
  | cons f fs ih => rw [List.sum_cons, add, ih, List.map_cons, List.sum_cons]

theorem arrays_sum (fs : List Footprint) : fs.sum.arrays = (fs.map arrays).sum :=
  count_sum arrays_zero arrays_add fs

theorem cells_sum (fs : List Footprint) : fs.sum.cells = (fs.map cells).sum :=
  count_sum cells_zero cells_add fs

theorem elements_sum (fs : List Footprint) : fs.sum.elements = (fs.map elements).sum :=
  count_sum elements_zero elements_add fs

end Footprint

end ArrayLayout
