/-
Levels below a zero extent.

An array without elements has nothing below it, so a tally that comes to a zero goes on with a
width of zero.  No count grows any more, and nothing that was counted can still overflow.  Yet
every further extent is turned into the cells of one array, and for the largest word there is
no such number.  That word spoils the tally even where not a single array has it.

* `Footprint.tallyFrom_append` — tallying a shape in two parts;
* `Footprint.tallyFrom_zero` — tallying levels that have no arrays;
* `Footprint.tally_of_zero` — a tally is made up to a zero, and then only looks for the
  largest word;
* `Footprint.of?_eq_of_zero` — which extents behind a zero have a say, and
  `Footprint.of?_largest_behind_zero` — that there are such extents.
-/
import ArrayLayout.Proofs.Overflow
import ArrayLayout.Tree.Build
import ArrayLayout.Tree.Measure

namespace ArrayLayout

/-- Every word but the largest has a successor. -/
theorem toNat_lt_of_ne_largest {extent : UInt64} (other : extent ≠ 0xFFFF_FFFF_FFFF_FFFF) :
    extent.toNat < wordLimit - 1 := by
  have word : extent.toNat < wordLimit := extent.toNat_lt
  have below : extent.toNat ≠ wordLimit - 1 := fun same => other (UInt64.toNat_inj.1 same)
  omega

namespace Footprint

variable {above f : Footprint} {width k : Nat} {s : Shape}

/-- A shape in two parts is tallied one part after the other.  The elements of the first part
are the arrays that the second one starts with. -/
theorem tallyFrom_append (above : Footprint) (width : Nat) (s rest : Shape) :
    tallyFrom above width (s ++ rest) =
      tallyFrom above width s >>= fun f => tallyFrom f f.elements rest := by
  induction s generalizing above width with
  | nil =>
    -- the elements above a level are not looked at
    show tallyFrom above width rest = tallyFrom { above with elements := width } width rest
    cases rest <;> rfl
  | cons extent inner ih => simp only [List.cons_append, tallyFrom, ih, bind_assoc]

theorem tally_append (nonempty : s ≠ []) (rest : Shape) :
    tally (s ++ rest) = tally s >>= fun f => tallyFrom f f.elements rest := by
  rw [tally_eq_tallyFrom (List.append_ne_nil_of_left_ne_nil nonempty rest),
    tally_eq_tallyFrom nonempty, tallyFrom_append]

theorem fit_eq_ok {n : Nat} (fits : n < wordLimit) (count : Overflow) : fit n count = .ok n :=
  fit_eq_ok_iff.2 ⟨fits, rfl⟩

/-- A level is passed if its cells, those of one array and those of all, leave the counts in
words. -/
theorem tallyFrom_cons {extent : UInt64} (own : extent.toNat + 1 < wordLimit)
    (arrays : above.arrays + width < wordLimit)
    (cells : above.cells + width * (extent.toNat + 1) < wordLimit) (inner : Shape) :
    tallyFrom above width (extent :: inner) =
      tallyFrom ⟨above.arrays + width, above.cells + width * (extent.toNat + 1), 0⟩
        (width * extent.toNat) inner := by
  have level : width * (extent.toNat + 1) < wordLimit := by omega
  have below : width * extent.toNat < wordLimit :=
    Nat.lt_of_le_of_lt (Nat.mul_le_mul_left width (Nat.le_succ _)) level
  simp only [tallyFrom, fit_eq_ok arrays, fit_eq_ok own, fit_eq_ok below, bind, Except.bind,
    fit_eq_ok level, fit_eq_ok cells]

/-- Levels without arrays add nothing, but the largest word among their extents is an overflow. -/
theorem tallyFrom_zero (arrays : above.arrays < wordLimit) (cells : above.cells < wordLimit)
    (s : Shape) :
    tallyFrom above 0 s =
      if 0xFFFF_FFFF_FFFF_FFFF ∈ s then .error .arrayCells
      else .ok { above with elements := 0 } := by
  induction s generalizing above with
  | nil => simp [tallyFrom]
  | cons extent inner ih =>
    by_cases largest : extent = 0xFFFF_FFFF_FFFF_FFFF
    · have overflow : fit (extent.toNat + 1) .arrayCells = .error .arrayCells :=
        fit_eq_error_iff.2 ⟨by simp [largest, wordLimit], rfl⟩
      rw [tallyFrom, fit_eq_ok (by simpa using arrays), overflow,
        if_pos (largest ▸ List.mem_cons_self)]
      rfl
    · have below := toNat_lt_of_ne_largest largest
      have rest : tallyFrom ⟨above.arrays, above.cells, 0⟩ 0 inner = _ := ih arrays cells
      rw [tallyFrom_cons (by omega) (by simpa using arrays) (by simpa using cells), Nat.zero_mul,
        Nat.zero_mul, Nat.add_zero, Nat.add_zero, rest]
      simp [Ne.symm largest]

/-- With a zero among the extents there are no elements. -/
theorem elements_exact_of_mem (zero : 0 ∈ s) : (exact s).elements = 0 := by
  induction s with
  | nil => cases zero
  | cons extent inner ih =>
    rw [exact_cons]
    rcases List.mem_cons.1 zero with rfl | below
    · exact Nat.zero_mul _
    · show extent.toNat * (exact inner).elements = 0
      rw [ih below, Nat.mul_zero]

/-- Up to a zero a shape is tallied as ever.  Behind it the tally only looks for the largest
word. -/
theorem tally_of_zero (zero : s[k]? = some 0) :
    tally s = tally (s.take (k + 1)) >>= fun f =>
      if 0xFFFF_FFFF_FFFF_FFFF ∈ s.drop (k + 1) then .error .arrayCells else .ok f := by
  obtain ⟨bound, value⟩ := List.getElem?_eq_some_iff.1 zero
  have inside : 0 ∈ s.take (k + 1) := by
    rw [← value]
    exact List.mem_take_iff_getElem.2 ⟨k, by omega, rfl⟩
  have nonempty : s.take (k + 1) ≠ [] := List.ne_nil_of_mem inside
  conv_lhs => rw [← List.take_append_drop (k + 1) s, tally_append nonempty]
  cases run : tally (s.take (k + 1)) with
  | error count => rfl
  | ok f =>
    rw [tally_eq_tallyFrom nonempty] at run
    obtain ⟨arrays, cells, -⟩ := lt_of_tallyFrom_eq_ok run (by decide) (by decide) (by decide)
    have none_left : f.elements = 0 := by
      rw [tallyFrom_eq_ok run, elements_exact_of_mem inside, Nat.mul_zero]
    show tallyFrom f f.elements _ = _
    rw [none_left, tallyFrom_zero arrays cells]
    show _ = if _ then _ else _
    rw [show { f with elements := 0 } = f from Footprint.ext rfl rfl none_left.symm]

/-- What is behind a zero has no say in a footprint, as long as it is not the largest word.  With
that word behind a zero there is no footprint. -/
theorem of?_eq_of_zero (zero : s[k]? = some 0) :
    of? s = if 0xFFFF_FFFF_FFFF_FFFF ∈ s.drop (k + 1) then none else of? (s.take (k + 1)) := by
  show (tally s).toOption = if 0xFFFF_FFFF_FFFF_FFFF ∈ s.drop (k + 1) then none
    else (tally (s.take (k + 1))).toOption
  rw [tally_of_zero zero]
  cases tally (s.take (k + 1)) with
  | error count => exact (ite_self none).symm
  | ok f =>
    show Except.toOption (if _ then _ else _) = _
    split <;> rfl

/-- Very large extents behind a zero, none of them the largest word. -/
theorem of?_two_empty_rows :
    let s : Shape := [2, 0, 0xFFFF_FFFF_FFFF_FFFE, 0xFFFF_FFFF_FFFF_FFFE]
    s[1]? = some 0 ∧ of? s = some ⟨3, 5, 0⟩ := by
  intro s
  have zero : s[1]? = some 0 := rfl
  refine ⟨zero, ?_⟩
  rw [of?_eq_of_zero zero, if_neg (by decide)]
  rfl

/-- The largest word behind a zero.  The nested array itself is built, and is a single array
without elements, which is also what the extents up to the zero are predicted to cost. -/
theorem of?_largest_behind_zero :
    let s : Shape := [0, 0xFFFF_FFFF_FFFF_FFFF]
    s[0]? = some 0 ∧ of? s = none ∧ of? (s.take 1) = some ⟨1, 1, 0⟩ ∧
      ∃ t, Tree.build s = .ok t ∧ t.footprint = ⟨1, 1, 0⟩ :=
  ⟨rfl, rfl, rfl, .interior 0 [], rfl, rfl⟩

end Footprint

end ArrayLayout
