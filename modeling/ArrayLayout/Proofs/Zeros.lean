/-
What the builder of trees builds, and when it stops.

A builder of either representation meets the arrays of a shape in the same order: the
check of an array comes before those of its sub-arrays, and all sub-arrays of one array
are alike.  So the first check to fail is on the leftmost path, and a shape is a list of
checks:

* `Shape.check` — the checks of a builder along the leftmost path;
* `Leaf.check_eq`, `Tree.checkSlots_eq` — the checks of trees, by the size of an array;
* `Tree.zeros` — the tree of zeros of a shape;
* `Tree.build_eq` — the builder of trees makes its checks and returns that tree;
* `Tree.build_eq_ok_iff` — the form in which it is used;
* `Shape.check_of_cells` — a bound on the total number of cells passes all checks;
* `Tree.footprint_zeros` — the tree of zeros has the exact footprint of its shape.
-/
import ArrayLayout.Proofs.Count
import ArrayLayout.Tree.Build
import ArrayLayout.Tree.Measure

namespace ArrayLayout

/-! ### Checks in the order of building -/

/-- The checks of a builder along the leftmost path of a shape, one for the innermost
array and one for all others.  Below an array without elements nothing is checked. -/
def Shape.check (leaf interior : UInt64 → Except Fault Unit) : Shape → Except Fault Unit
  | [] => .error .noRank
  | [extent] => leaf extent
  | extent :: next :: inner => do
    interior extent
    if extent = 0 then .ok () else check leaf interior (next :: inner)

namespace Shape

variable {leaf interior leaf' interior' : UInt64 → Except Fault Unit} {s : Shape}

theorem check_cons_cons (extent next : UInt64) (inner : Shape) :
    check leaf interior (extent :: next :: inner) =
      (interior extent >>= fun _ =>
        if extent = 0 then .ok () else check leaf interior (next :: inner)) := rfl

theorem check_cons_cons_eq_ok_iff {extent next : UInt64} {inner : Shape} :
    check leaf interior (extent :: next :: inner) = .ok () ↔
      interior extent = .ok () ∧
        (extent ≠ 0 → check leaf interior (next :: inner) = .ok ()) := by
  rw [check_cons_cons, except_bind_eq_ok_iff]
  constructor
  · rintro ⟨⟨⟩, own, rest⟩
    refine ⟨own, fun elements => ?_⟩
    rwa [if_neg elements] at rest
  · rintro ⟨own, rest⟩
    refine ⟨(), own, ?_⟩
    by_cases empty : extent = 0
    · rw [if_pos empty]
    · rw [if_neg empty]
      exact rest empty

theorem ne_nil_of_check (passed : s.check leaf interior = .ok ()) : s ≠ [] := by
  rintro rfl
  cases passed

/-- Weaker checks pass wherever stronger ones do. -/
theorem check_of_imp (leafs : ∀ e, leaf e = .ok () → leaf' e = .ok ())
    (interiors : ∀ e, interior e = .ok () → interior' e = .ok ())
    (passed : s.check leaf interior = .ok ()) : s.check leaf' interior' = .ok () := by
  induction s using check.induct with
  | case1 => cases passed
  | case2 extent => exact leafs extent passed
  | case3 extent next inner ih =>
    rw [check_cons_cons_eq_ok_iff] at passed ⊢
    exact ⟨interiors extent passed.1, fun elements => ih (passed.2 elements)⟩

/-- Checks that pass for every array of at most `bound` cells pass for a nested array of
at most `bound` cells in all. -/
theorem check_of_cells {bound : Nat} (leafs : ∀ e : UInt64, e.toNat < bound → leaf e = .ok ())
    (interiors : ∀ e : UInt64, e.toNat < bound → interior e = .ok ()) (nonempty : s ≠ [])
    (total : (Footprint.exact s).cells ≤ bound) : s.check leaf interior = .ok () := by
  induction s using check.induct with
  | case1 => exact absurd rfl nonempty
  | case2 extent => exact leafs extent (Nat.lt_of_lt_of_le (Footprint.lt_cells_exact ..) total)
  | case3 extent next inner ih =>
    rw [check_cons_cons_eq_ok_iff]
    refine ⟨interiors extent (Nat.lt_of_lt_of_le (Footprint.lt_cells_exact ..) total), ?_⟩
    -- the total bounds a sub-array only if there is one, and otherwise none is checked
    intro elements
    exact ih (by simp) (Nat.le_trans (Footprint.cells_exact_le (next :: inner) elements) total)

end Shape

/-! ### The checks of trees -/

/-- The check that a leaf fits in memory. -/
def Leaf.check (extent : UInt64) : Except Fault Unit := (Leaf.build extent).map fun _ => ()

namespace Leaf

theorem build_eq (extent : UInt64) : build extent = (check extent).map fun _ => zeros extent := by
  unfold check build
  split
  · rfl
  · split <;> rfl

/-- What the check says of a leaf, by the number of its cells. -/
theorem check_eq (extent : UInt64) :
    check extent = if extent.toNat = wordLimit - 1 then .error (.unaddressable extent)
      else if (extent.toNat + 1) * cellBytes ≤ maxBlockBytes then .ok ()
      else .error .slotCapacity := by
  unfold check build
  split
  · rename_i overflow
    exact (if_pos (cellsFor?_eq_none_iff.1 overflow)).symm
  · rename_i cells fits
    obtain ⟨word, rfl⟩ := cellsFor?_eq_some_iff.1 fits
    rw [if_neg (Nat.ne_of_lt word)]
    split <;> rfl

theorem check_eq_ok_iff {extent : UInt64} :
    check extent = .ok () ↔ (extent.toNat + 1) * cellBytes ≤ maxBlockBytes := by
  rw [check_eq]
  split
  · rename_i largest
    simp only [reduceCtorEq, false_iff, largest, wordLimit, cellBytes, maxBlockBytes]
    omega
  · simp

end Leaf

namespace Tree

/-- What the check says of an interior array, by the number of its slots. -/
theorem checkSlots_eq (extent : UInt64) :
    checkSlots extent = if extent.toNat = wordLimit - 1 then .error (.unaddressable extent)
      else if extent.toNat * slotBytes ≤ maxBlockBytes then .ok () else .error .slotCapacity := by
  unfold checkSlots
  split
  · rename_i overflow
    exact (if_pos (cellsFor?_eq_none_iff.1 overflow)).symm
  · rename_i cells fits
    rw [if_neg (Nat.ne_of_lt (cellsFor?_eq_some_iff.1 fits).1)]

theorem checkSlots_eq_ok_iff {extent : UInt64} :
    checkSlots extent = .ok () ↔ extent.toNat * slotBytes ≤ maxBlockBytes := by
  rw [checkSlots_eq]
  split
  · rename_i largest
    simp only [reduceCtorEq, false_iff, largest, wordLimit, slotBytes, maxBlockBytes]
    omega
  · simp

/-! ### The tree that is built -/

/-- The tree of zeros of a shape.  The empty shape has none, and any tree will do. -/
def zeros : Shape → Tree
  | [] => default
  | [extent] => leaf (Leaf.zeros extent)
  | extent :: next :: inner => interior extent (List.replicate extent.toNat (zeros (next :: inner)))

theorem zeros_singleton (extent : UInt64) : zeros [extent] = leaf (Leaf.zeros extent) := rfl

theorem zeros_cons_cons (extent next : UInt64) (inner : Shape) :
    zeros (extent :: next :: inner) =
      interior extent (List.replicate extent.toNat (zeros (next :: inner))) := rfl

theorem collectFrom_ok {ε α : Type} (a : α) (start count : Nat) :
    collectFrom (fun _ => (.ok a : Except ε α)) start count = .ok (List.replicate count a) := by
  induction count generalizing start with
  | zero => rfl
  | succ count ih =>
    simp only [collectFrom, ih, List.replicate_succ]
    rfl

theorem collectFrom_error {ε α : Type} (e : ε) (start count : Nat) :
    collectFrom (fun _ => (.error e : Except ε α)) start (count + 1) = .error e := rfl

theorem ofExcept_except {ε α : Type} (x : Except ε α) :
    (MonadExcept.ofExcept x : Except ε α) = x := by
  cases x <;> rfl

/-- The builder of trees makes its checks, and returns the tree of zeros if all pass. -/
theorem build_eq (s : Shape) :
    build s = (s.check Leaf.check checkSlots).map fun _ => zeros s := by
  induction s using Shape.check.induct with
  | case1 => rfl
  | case2 extent =>
    rw [build_singleton, Leaf.build_eq]
    show _ = (Leaf.check extent).map _
    cases Leaf.check extent <;> rfl
  | case3 extent next inner ih =>
    rw [build_cons_cons, Shape.check_cons_cons, zeros_cons_cons]
    simp only [buildInterior, ofExcept_except, ih]
    cases checkSlots extent with
    | error fault => rfl
    | ok own =>
      simp only [bind, Except.bind]
      by_cases empty : extent = 0
      · subst empty
        rfl
      · -- the first sub-array decides: the others are checked only if it passes
        obtain ⟨count, elements⟩ := exists_toNat_eq_succ empty
        cases Shape.check Leaf.check checkSlots (next :: inner) with
        | error fault =>
          simp only [Except.map, elements, collectFrom_error]
          simp [empty]
        | ok inner' =>
          simp only [Except.map, collectFrom_ok]
          simp [empty, pure, Except.pure]

theorem build_eq_ok_iff {s : Shape} {t : Tree} :
    build s = .ok t ↔ s.check Leaf.check checkSlots = .ok () ∧ t = zeros s := by
  rw [build_eq]
  cases s.check Leaf.check checkSlots with
  | error fault => simp [Except.map]
  | ok passed => simp [Except.map, eq_comm]

/-- The tree of zeros costs exactly what its shape says. -/
theorem footprint_zeros {s : Shape} (nonempty : s ≠ []) :
    (zeros s).footprint = Footprint.exact s := by
  induction s using Shape.check.induct with
  | case1 => exact absurd rfl nonempty
  | case2 extent =>
    rw [zeros_singleton, footprint_leaf, Footprint.exact_cons]
    ext <;> simp
  | case3 extent next inner ih =>
    rw [zeros_cons_cons, footprint_interior, List.map_replicate, ih (by simp),
      Footprint.sum_replicate, Footprint.exact_cons extent]
    ext <;> simp

end Tree

end ArrayLayout
