/-
Smaller requests are accepted too.

A request is accepted exactly if it is within every limit, and the counts that are compared with
the limits are exact.  With smaller extents no count is larger, also where a zero cuts off all
levels below it.  With inner dimensions left out there are no more arrays and no more cells,
though there may be more elements.  So asking for less never turns an acceptance into a
rejection, and neither does raising a limit.

* `Footprint.exact_le_of_forall₂`, `Footprint.exact_le_of_isPrefix` — counts of smaller shapes;
* `Limits.Admits` — a request is within all limits, in exact numbers, and
  `Limits.accept_eq_ok_iff_admits` — these are the requests that are accepted;
* `Limits.Admits.of_forall₂`, `Limits.Admits.of_isPrefix`, `Limits.Admits.of_le` — smaller
  extents, fewer dimensions, higher limits;
* `Limits.accept_of_smaller` — the same for the decision on requests.
-/
import ArrayLayout.Proofs.Decision
import Mathlib.Data.List.Forall2

namespace ArrayLayout

namespace Footprint

/-- Counts grow with the extents. -/
theorem exact_le_of_forall₂ {small s : Shape}
    (lower : List.Forall₂ (fun d e => d.toNat ≤ e.toNat) small s) :
    (exact small).arrays ≤ (exact s).arrays ∧ (exact small).cells ≤ (exact s).cells ∧
      (exact small).elements ≤ (exact s).elements := by
  induction lower with
  | nil => exact ⟨Nat.le_refl 0, Nat.le_refl 0, Nat.le_refl 1⟩
  | cons first _ ih =>
    obtain ⟨arrays, cells, elements⟩ := ih
    rw [exact_cons, exact_cons]
    refine ⟨?_, ?_, Nat.mul_le_mul first elements⟩
    · exact Nat.add_le_add_left (Nat.mul_le_mul first arrays) 1
    · exact Nat.add_le_add (Nat.succ_le_succ first) (Nat.mul_le_mul first cells)

/-- Arrays and cells grow with the number of dimensions.  Elements do not: an outer part ends in
the arrays of the next dimension, and that one may be a zero. -/
theorem exact_le_of_isPrefix {outer s : Shape} (part : outer <+: s) :
    (exact outer).arrays ≤ (exact s).arrays ∧ (exact outer).cells ≤ (exact s).cells := by
  induction outer generalizing s with
  | nil => exact ⟨Nat.zero_le _, Nat.zero_le _⟩
  | cons extent outer ih =>
    obtain ⟨inner, rfl, below⟩ := List.cons_prefix_iff.1 part
    obtain ⟨arrays, cells⟩ := ih below
    rw [exact_cons, exact_cons]
    constructor
    · exact Nat.add_le_add_left (Nat.mul_le_mul_left _ arrays) 1
    · exact Nat.add_le_add_left (Nat.mul_le_mul_left _ cells) _

end Footprint

namespace Shape

/-- Extents that are not negative keep their order when they are taken as words. -/
theorem forall₂_reinterpret {smaller request : List Int64}
    (lower : List.Forall₂ (fun d e => 0 ≤ d ∧ d ≤ e) smaller request) :
    List.Forall₂ (fun d e => d.toNat ≤ e.toNat) (reinterpret smaller) (reinterpret request) := by
  rw [reinterpret, reinterpret, List.forall₂_map_left_iff, List.forall₂_map_right_iff]
  refine lower.imp ?_
  rintro d e ⟨sign, le⟩
  have signs := Int64.le_trans sign le
  rw [(toNat_toUInt64 (Int64.not_lt.2 sign)).1, (toNat_toUInt64 (Int64.not_lt.2 signs)).1]
  exact Int.toNat_le_toNat (Int64.le_iff_toInt_le.1 le)

theorem signs_of_forall₂ {smaller request : List Int64}
    (lower : List.Forall₂ (fun d e => 0 ≤ d ∧ d ≤ e) smaller request) :
    ∀ d ∈ smaller, ¬d < 0 := by
  induction lower with
  | nil => simp
  | cons first _ ih => exact List.forall_mem_cons.2 ⟨Int64.not_lt.2 first.1, ih⟩

end Shape

namespace Limits

/-- A request is within all limits. -/
structure Admits (l : Limits) (request : List Int64) : Prop where
  nonempty : request ≠ []
  rank : request.length ≤ l.maxRank
  signs : ∀ e ∈ request, ¬e < 0
  cells : (Footprint.exact (Shape.reinterpret request)).cells ≤ l.effectiveMaxCells

variable {l larger : Limits} {request smaller outer : List Int64} {s : Shape} {f : Footprint}

/-- What is within all limits is accepted, with its exact counts, and nothing else is. -/
theorem accept_eq_ok_iff_admits :
    l.accept request = .ok (s, f) ↔
      l.Admits request ∧ s = Shape.reinterpret request ∧ f = Footprint.exact s := by
  constructor
  · intro accepted
    obtain ⟨rank, shape, -, -⟩ := accept_eq_ok_iff.1 accepted
    obtain ⟨nonempty, signs, -⟩ := Shape.ofRequest_eq_ok_iff.1 shape
    obtain ⟨-, rfl, rfl, within⟩ := shape_of_accept accepted
    exact ⟨⟨nonempty, rank, signs, within⟩, rfl, rfl⟩
  · rintro ⟨⟨nonempty, rank, signs, within⟩, rfl, rfl⟩
    -- cells within any limit are far from the end of a word
    have word : ¬wordLimit ≤ (Footprint.exact (Shape.reinterpret request)).cells := by
      have most : l.effectiveMaxCells ≤ maxAddressableCells := Nat.min_le_right _ _
      have bound : maxAddressableCells < wordLimit := by decide
      omega
    rw [accept_of_shape rank (Shape.ofRequest_eq_ok_iff.2 ⟨nonempty, signs, rfl⟩), if_neg word,
      if_neg (Nat.not_lt.2 within)]

theorem Admits.of_forall₂ (admitted : l.Admits request)
    (lower : List.Forall₂ (fun d e => 0 ≤ d ∧ d ≤ e) smaller request) : l.Admits smaller where
  nonempty := by
    rintro rfl
    exact admitted.nonempty (List.forall₂_nil_left_iff.1 lower)
  rank := lower.length_eq ▸ admitted.rank
  signs := Shape.signs_of_forall₂ lower
  cells :=
    Nat.le_trans (Footprint.exact_le_of_forall₂ (Shape.forall₂_reinterpret lower)).2.1
      admitted.cells

theorem Admits.of_isPrefix (admitted : l.Admits request) (nonempty : outer ≠ [])
    (part : outer <+: request) : l.Admits outer where
  nonempty := nonempty
  rank := Nat.le_trans part.length_le admitted.rank
  signs e used := admitted.signs e (part.subset used)
  cells := Nat.le_trans (Footprint.exact_le_of_isPrefix (part.map _)).2 admitted.cells

theorem Admits.of_le (admitted : l.Admits request) (rank : l.maxRank ≤ larger.maxRank)
    (cells : l.maxCells ≤ larger.maxCells) : larger.Admits request where
  nonempty := admitted.nonempty
  rank := Nat.le_trans admitted.rank rank
  signs := admitted.signs
  cells := Nat.le_trans admitted.cells (min_le_min_right _ cells)

/-- With a request all requests are accepted that ask for less, extent by extent, or leave out
inner dimensions, and their counts are no larger.  Raising the limits changes nothing for what
was accepted before. -/
theorem accept_of_smaller (accepted : l.accept request = .ok (s, f)) :
    (∀ smaller, List.Forall₂ (fun d e => 0 ≤ d ∧ d ≤ e) smaller request →
      ∃ g, l.accept smaller = .ok (Shape.reinterpret smaller, g) ∧
        g.arrays ≤ f.arrays ∧ g.cells ≤ f.cells ∧ g.elements ≤ f.elements) ∧
    (∀ outer, outer ≠ [] → outer <+: request →
      ∃ g, l.accept outer = .ok (Shape.reinterpret outer, g) ∧
        g.arrays ≤ f.arrays ∧ g.cells ≤ f.cells) ∧
    ∀ larger : Limits, l.maxRank ≤ larger.maxRank → l.maxCells ≤ larger.maxCells →
      larger.accept request = .ok (s, f) := by
  obtain ⟨admitted, rfl, rfl⟩ := accept_eq_ok_iff_admits.1 accepted
  refine ⟨?_, ?_, ?_⟩
  · intro smaller lower
    exact ⟨_, accept_eq_ok_iff_admits.2 ⟨admitted.of_forall₂ lower, rfl, rfl⟩,
      Footprint.exact_le_of_forall₂ (Shape.forall₂_reinterpret lower)⟩
  · intro outer nonempty part
    exact ⟨_, accept_eq_ok_iff_admits.2 ⟨admitted.of_isPrefix nonempty part, rfl, rfl⟩,
      Footprint.exact_le_of_isPrefix (part.map _)⟩
  · intro larger rank cells
    exact accept_eq_ok_iff_admits.2 ⟨admitted.of_le rank cells, rfl, rfl⟩

/-- Planes under limits that they meet exactly: without their rows, with a zero in the middle, and
under the standard limits. -/
theorem accept_of_smaller_planes :
    let tight : Limits := ⟨3, 15⟩
    tight.accept [2, 1, 3] = .ok ([2, 1, 3], ⟨5, 15, 6⟩) ∧
      (∃ g, tight.accept [2, 0, 3] = .ok ([2, 0, 3], g) ∧ g.cells ≤ 15) ∧
      (∃ g, tight.accept [2, 1] = .ok ([2, 1], g) ∧ g.cells ≤ 15) ∧
      standard.accept [2, 1, 3] = .ok ([2, 1, 3], ⟨5, 15, 6⟩) := by
  intro tight
  have accepted : tight.accept [2, 1, 3] = .ok ([2, 1, 3], ⟨5, 15, 6⟩) := rfl
  obtain ⟨lower, outer, raise⟩ := accept_of_smaller accepted
  obtain ⟨g, without, -, cells, -⟩ := lower [2, 0, 3] (by decide)
  obtain ⟨g', planes, -, cells'⟩ := outer [2, 1] (by decide) (by decide)
  exact ⟨accepted, ⟨g, without, cells⟩, ⟨g', planes, cells'⟩,
    raise standard (by decide) (by decide)⟩

end Limits

end ArrayLayout
