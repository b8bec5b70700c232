/-
The decision on a request, as a table.

Each check of a request turns it down for a reason of its own.  The table lists the reasons
in the order of the checks, in exact numbers, and says nothing of how cells are counted in
words.  Its last row is a request that is accepted, with the extents, the counts and the size
in bytes that it is accepted with.

* `arraysByLevel` — arrays of a nested array, one depth after the other;
* `Footprint.exact_eq` — the exact counts, depth by depth;
* `Limits.bytes?_of_le` — cells within any limit have a size in bytes;
* `Limits.verdict` — the table;
* `Limits.accept_eq_verdict` — every request is decided by the table.
-/
import ArrayLayout.Proofs.Decision

namespace ArrayLayout

/-- Arrays of a nested array, depth by depth: as many as the extents above multiply to. -/
def arraysByLevel (extents : List Nat) : Nat :=
  ∑ depth ∈ Finset.range extents.length, (extents.take depth).prod

theorem arraysByLevel_cons (extent : Nat) (inner : List Nat) :
    arraysByLevel (extent :: inner) = 1 + extent * arraysByLevel inner := by
  have below (depth : Nat) :
      ((extent :: inner).take (depth + 1)).prod = extent * (inner.take depth).prod := by
    simp
  rw [arraysByLevel, List.length_cons, Finset.sum_range_succ',
    Finset.sum_congr rfl fun k _ => below k, ← Finset.mul_sum, Nat.add_comm]
  simp [arraysByLevel]

/-- The exact counts of a shape: sums over the depths, and the product of all extents. -/
theorem Footprint.exact_eq (s : Shape) :
    exact s = ⟨arraysByLevel (s.map UInt64.toNat), cellsByLevel (s.map UInt64.toNat),
      (s.map UInt64.toNat).prod⟩ := by
  induction s with
  | nil => rfl
  | cons extent inner ih =>
    rw [exact_cons, ih, List.map_cons, arraysByLevel_cons, cellsByLevel_cons, List.prod_cons]

namespace Shape

variable {request : List Int64}

/-- Extents that are not negative are the same numbers as words. -/
theorem map_toNat_reinterpret (signs : ∀ e ∈ request, ¬e < 0) :
    (reinterpret request).map UInt64.toNat = request.map fun e => e.toInt.toNat := by
  rw [reinterpret, List.map_map]
  refine List.map_congr_left ?_
  intro e used
  exact (toNat_toUInt64 (signs e used)).1

theorem map_toInt_reinterpret (signs : ∀ e ∈ request, ¬e < 0) :
    ((reinterpret request).map fun e => (e.toNat : Int)) = request.map Int64.toInt := by
  rw [reinterpret, List.map_map]
  refine List.map_congr_left ?_
  intro e used
  have sign := signs e used
  rw [Int64.lt_iff_toInt_lt, Int64.toInt_zero] at sign
  show (e.toUInt64.toNat : Int) = e.toInt
  rw [(toNat_toUInt64 (signs e used)).1, Int.toNat_of_nonneg (by omega)]

end Shape

namespace Limits

/-- What is decided about a request: the first row that applies.  A request that is accepted
comes with its extents, its counts and its size in bytes. -/
def verdict (l : Limits) (request : List Int64) :
    Except Rejection (List Int × Footprint × Option Nat) :=
  let extents := request.map fun e => e.toInt.toNat
  let cells := cellsByLevel extents
  let limit := min l.maxCells (2 ^ 60 - 1)
  if request = [] then .error .noExtents
  else if l.maxRank < request.length then .error (.rankAboveLimit request.length l.maxRank)
  else match request.findIdx? fun e => e < 0 with
    | some depth => .error (.negativeExtent depth (request.getD depth 0).toInt)
    | none =>
      if 2 ^ 64 ≤ cells then .error .countOverflow
      else if limit < cells then .error (.tooManyCells cells limit)
      else .ok (request.map Int64.toInt, ⟨arraysByLevel extents, cells, extents.prod⟩,
        some (8 * cells))

variable {l : Limits} {request : List Int64}

/-- With a negative extent, the first one is the reason. -/
theorem accept_of_findIdx? {depth : Nat} (rank : request.length ≤ l.maxRank)
    (first : request.findIdx? (fun e => e < 0) = some depth) :
    l.accept request = .error (.negativeExtent depth (request.getD depth 0).toInt) := by
  obtain ⟨bound, negative, before⟩ := List.findIdx?_eq_some_iff_getElem.1 first
  have found : request[depth]? = some request[depth] := List.getElem?_eq_getElem bound
  have earlier (j : Nat) (lt : j < depth) (d : Int64) (there : request[j]? = some d) : ¬d < 0 := by
    obtain ⟨_, rfl⟩ := List.getElem?_eq_some_iff.1 there
    simpa using before j lt
  refine accept_of_error rank ?_
  cases request with
  | nil => cases first
  | cons extent rest =>
    refine Shape.ofRequestFrom_eq_error_iff.2
      ⟨depth, _, found, by simpa using negative, earlier, ?_⟩
    rw [Nat.zero_add, List.getD_eq_getElem?_getD, found, Option.getD_some]

/-- Cells within the limit in force have a size in bytes that fits in a word. -/
theorem bytes?_of_le {cells : Nat} (within : cells ≤ l.effectiveMaxCells) (arrays elements : Nat) :
    (Footprint.mk arrays cells elements).bytes? = some (8 * cells) := by
  have most : cells ≤ maxAddressableCells := Nat.le_trans within (Nat.min_le_right _ _)
  rw [maxAddressableCells, maxBlockBytes, cellBytes] at most
  show checked (cells * cellBytes) = some (8 * cells)
  rw [checked_eq_some_iff, wordLimit, cellBytes]
  omega

/-- Every request is decided by the table.  Both sides are compared in exact numbers: a shape
by the numbers that its extents are, and a footprint along with its size in bytes. -/
theorem accept_eq_verdict (l : Limits) (request : List Int64) :
    ((l.accept request).map fun (s, f) => (s.map fun e => (e.toNat : Int), f, f.bytes?)) =
      l.verdict request := by
  by_cases empty : request = []
  · subst empty
    rw [accept_of_error (Nat.zero_le _) (rfl : Shape.ofRequest [] = .error .noExtents)]
    rfl
  by_cases above : l.maxRank < request.length
  · rw [accept_of_rank above, verdict, if_neg empty, if_pos above]
    rfl
  have rank : request.length ≤ l.maxRank := by omega
  rw [verdict, if_neg empty, if_neg above]
  cases first : request.findIdx? fun e => e < 0 with
  | some depth =>
    rw [accept_of_findIdx? rank first]
    rfl
  | none =>
    have signs : ∀ e ∈ request, ¬e < 0 := by
      simpa using List.findIdx?_eq_none_iff.1 first
    have shape := Shape.ofRequest_eq_ok_iff.2 ⟨empty, signs, rfl⟩
    have counts := Footprint.exact_eq (Shape.reinterpret request)
    rw [Shape.map_toNat_reinterpret signs] at counts
    rw [accept_of_shape rank shape, counts]
    -- the last two checks are on the exact number of cells
    by_cases large : wordLimit ≤ cellsByLevel (request.map fun e => e.toInt.toNat)
    · rw [if_pos large]
      exact (if_pos large).symm
    by_cases many : l.effectiveMaxCells < cellsByLevel (request.map fun e => e.toInt.toNat)
    · rw [if_neg large, if_pos many]
      exact ((if_neg large).trans (if_pos many)).symm
    · rw [if_neg large, if_neg many]
      refine Eq.trans ?_ ((if_neg large).trans (if_neg many)).symm
      show Except.ok (_, _, _) = _
      rw [bytes?_of_le (Nat.not_lt.1 many), Shape.map_toInt_reinterpret signs]

end Limits

end ArrayLayout
