/-
Requests that only memory can hold.

Both checked builders decide on a request in the same way, but a slot of a tree is three times as
wide as a cell in memory, so the limit on cells that a tree is built under may be the smaller one.
All other checks have nothing to do with slots.  So the decisions differ in one band of cell
counts only, and it is empty if the limits of the caller are below both.

* `requestedCells` — cells that a request asks for, exactly;
* `Eligible` — requests that pass all checks but that on the limit of cells;
* `Limits.accept_of_eligible`, `Limits.accept_of_not_eligible` — what depends on that limit;
* `Tree.result_of_many`, `Tree.result_of_few` — the builder of trees, by the number of cells;
* `Heap.result_of_many`, `Heap.result_of_few` — the builder in memory;
* `AgreeApartFromBand` — what the results have in common, and where they differ;
* `tryBuild_agreeApartFromBand` — they do so for every request under all limits.
-/
import ArrayLayout.Proofs.Agreement
import ArrayLayout.Proofs.Decision

namespace ArrayLayout

/-- Cells of the nested array that a request asks for. -/
def requestedCells (request : List Int64) : Nat :=
  cellsByLevel (request.map fun e => e.toInt.toNat)

/-- A request passes all checks that come before the one on the limit of cells. -/
structure Eligible (maxRank : Nat) (request : List Int64) : Prop where
  nonempty : request ≠ []
  rank : request.length ≤ maxRank
  signs : ∀ e ∈ request, ¬e < 0
  word : requestedCells request < 2 ^ 64

variable {limits : Limits} {request : List Int64}

namespace Limits

variable {l : Limits}

/-- An eligible request is decided by its number of cells. -/
theorem accept_of_eligible (eligible : Eligible l.maxRank request) :
    l.accept request =
      if l.effectiveMaxCells < requestedCells request then
        .error (.tooManyCells (requestedCells request) l.effectiveMaxCells)
      else .ok (Shape.reinterpret request, Footprint.exact (Shape.reinterpret request)) := by
  have shape := Shape.ofRequest_eq_ok_iff.2 ⟨eligible.nonempty, eligible.signs, rfl⟩
  have word : ¬wordLimit ≤ requestedCells request := Nat.not_le.2 eligible.word
  rw [accept_of_shape eligible.rank shape, Shape.cells_exact_reinterpret eligible.signs]
  exact if_neg word

/-- Any other request is turned down for a reason that only the rank limit has a say in. -/
theorem accept_of_not_eligible {maxRank : Nat} (ineligible : ¬Eligible maxRank request) :
    ∃ reason, (∀ n limit, reason ≠ .tooManyCells n limit) ∧
      ∀ l : Limits, l.maxRank = maxRank → l.accept request = .error reason := by
  by_cases above : maxRank < request.length
  · refine ⟨.rankAboveLimit request.length maxRank, by simp, ?_⟩
    rintro l rfl
    exact accept_of_rank above
  have rank : request.length ≤ maxRank := Nat.not_lt.1 above
  cases shape : Shape.ofRequest request with
  | error reason =>
    refine ⟨reason, ?_, ?_⟩
    · rintro n limit rfl
      cases request with
      | nil => cases shape
      | cons extent rest =>
        obtain ⟨_, _, -, -, -, other⟩ := Shape.ofRequestFrom_eq_error_iff.1 shape
        cases other
    · rintro l rfl
      exact accept_of_error rank shape
  | ok s =>
    refine ⟨.countOverflow, by simp, ?_⟩
    rintro l rfl
    obtain ⟨nonempty, signs, rfl⟩ := Shape.ofRequest_eq_ok_iff.1 shape
    -- all that is left to fail is the count of cells
    have large : wordLimit ≤ requestedCells request := by
      by_contra fits
      exact ineligible ⟨nonempty, rank, signs, Nat.not_le.1 fits⟩
    rw [accept_of_shape rank shape, Shape.cells_exact_reinterpret signs]
    exact if_pos large

/-- Most cells of a request for a tree, whose slots take 24 bytes. -/
def cellsInTree (l : Limits) : Nat := min l.maxCells ((2 ^ 63 - 1) / 24)

/-- Most cells of a request in memory, where all cells take 8 bytes. -/
def cellsInMemory (l : Limits) : Nat := min l.maxCells ((2 ^ 63 - 1) / 8)

theorem effectiveMaxCells_of_tree : (l.clampTo slotBytes).effectiveMaxCells = l.cellsInTree :=
  effectiveMaxCells_clampTo_of_le (by decide) l

theorem effectiveMaxCells_of_memory :
    (l.clampTo cellBytes).effectiveMaxCells = l.cellsInMemory :=
  effectiveMaxCells_clampTo_of_le (Nat.le_refl _) l

end Limits

/-! ### Results -/

theorem Tree.result_of_many (eligible : Eligible limits.maxRank request)
    (many : limits.cellsInTree < requestedCells request) :
    (Tree.tryBuild limits request).result =
      .error (.rejected (.tooManyCells (requestedCells request) limits.cellsInTree)) := by
  have decided := Limits.accept_of_eligible (l := limits.clampTo slotBytes) eligible
  rw [Limits.effectiveMaxCells_of_tree, if_pos many] at decided
  exact Limits.result_buildWith_of_error _ decided

theorem Tree.result_of_few (eligible : Eligible limits.maxRank request)
    (few : requestedCells request ≤ limits.cellsInTree) :
    (Tree.tryBuild limits request).result = .ok (Tree.zeros (Shape.reinterpret request)) := by
  have decided := Limits.accept_of_eligible (l := limits.clampTo slotBytes) eligible
  rw [Limits.effectiveMaxCells_of_tree, if_neg (Nat.not_lt.2 few)] at decided
  exact (Tree.tryBuild_of_accept decided).2

theorem Heap.result_of_many (eligible : Eligible limits.maxRank request)
    (many : limits.cellsInMemory < requestedCells request) (h : Heap) :
    (Heap.tryBuild limits request h).result =
      .error (.rejected (.tooManyCells (requestedCells request) limits.cellsInMemory)) := by
  have decided := Limits.accept_of_eligible (l := limits.clampTo cellBytes) eligible
  rw [Limits.effectiveMaxCells_of_memory, if_pos many] at decided
  exact Limits.result_buildWith_of_error _ decided

theorem Heap.result_of_few (eligible : Eligible limits.maxRank request)
    (few : requestedCells request ≤ limits.cellsInMemory) (h : Heap) :
    ∃ root h', (Heap.tryBuild limits request h).result = .ok (root, h') ∧
      h'.readTree request.length root = .ok (some (Tree.zeros (Shape.reinterpret request))) := by
  have decided := Limits.accept_of_eligible (l := limits.clampTo cellBytes) eligible
  rw [Limits.effectiveMaxCells_of_memory, if_neg (Nat.not_lt.2 few)] at decided
  exact Heap.readTree_tryBuild decided h

/-! ### Both -/

/-- Results of the two checked builders for a request under the same limits: they agree, but for
requests whose cells are above the limit of trees and not above the one of memory. -/
structure AgreeApartFromBand (limits : Limits) (request : List Int64)
    (inTree : Except Failure Tree) (inMemory : Except Failure (Ref × Heap)) : Prop where
  -- one has a reason other than the limit on cells exactly if the other one has it
  sameReason : ∀ reason, (∀ n limit, reason ≠ .tooManyCells n limit) →
    (inTree = .error (.rejected reason) ↔ inMemory = .error (.rejected reason))
  -- what is built as a tree is built in memory, and read back from it
  sameTree : ∀ t, inTree = .ok t → ∃ root h', inMemory = .ok (root, h') ∧
    h'.readTree request.length root = .ok (some t)
  -- if both count too many cells, they count the same
  sameCount : ∀ n limit n' limit', inTree = .error (.rejected (.tooManyCells n limit)) →
    inMemory = .error (.rejected (.tooManyCells n' limit')) → n = n'
  -- only the one in memory builds exactly if the cells are in the band between the limits
  band_iff : ((∃ built, inMemory = .ok built) ∧ ∃ failure, inTree = .error failure) ↔
    Eligible limits.maxRank request ∧ (2 ^ 63 - 1) / 24 < requestedCells request ∧
      requestedCells request ≤ min limits.maxCells ((2 ^ 63 - 1) / 8)
  -- and then they are too many for a tree, under the limit that goes with its slots
  band_reason : (∃ built, inMemory = .ok built) → ∀ failure, inTree = .error failure →
    failure = .rejected (.tooManyCells (requestedCells request) ((2 ^ 63 - 1) / 24))
  -- below both limits that go with slots there is no band
  same : limits.maxCells ≤ (2 ^ 63 - 1) / 24 →
    (∀ failure, inTree = .error failure ↔ inMemory = .error failure) ∧
    ∀ t, inTree = .ok t ↔ ∃ root h', inMemory = .ok (root, h') ∧
      h'.readTree request.length root = .ok (some t)

variable {inTree : Except Failure Tree} {inMemory : Except Failure (Ref × Heap)}

theorem agreeApartFromBand_of_ineligible {reason : Rejection}
    (ineligible : ¬Eligible limits.maxRank request)
    (other : ∀ n limit, reason ≠ .tooManyCells n limit)
    (tree : inTree = .error (.rejected reason)) (memory : inMemory = .error (.rejected reason)) :
    AgreeApartFromBand limits request inTree inMemory := by
  subst tree memory
  constructor <;> simp [ineligible, other]

theorem agreeApartFromBand_of_built {t : Tree} {root : Ref} {h' : Heap}
    (few : requestedCells request ≤ limits.cellsInTree) (tree : inTree = .ok t)
    (memory : inMemory = .ok (root, h'))
    (read : h'.readTree request.length root = .ok (some t)) :
    AgreeApartFromBand limits request inTree inMemory := by
  subst tree memory
  have below : requestedCells request ≤ (2 ^ 63 - 1) / 24 :=
    Nat.le_trans few (Nat.min_le_right _ _)
  constructor
  case band_iff =>
    refine iff_of_false ?_ ?_
    · rintro ⟨-, failure, ⟨⟩⟩
    · rintro ⟨-, above, -⟩
      exact absurd below (Nat.not_le.2 above)
  case sameTree =>
    rintro _ ⟨⟩
    exact ⟨root, h', rfl, read⟩
  case same =>
    refine fun _ => ⟨by simp, fun u => ⟨?_, ?_⟩⟩
    · rintro ⟨⟩
      exact ⟨root, h', rfl, read⟩
    · rintro ⟨_, _, ⟨⟩, read'⟩
      rw [read] at read'
      cases read'
      rfl
  all_goals simp

theorem agreeApartFromBand_of_band {built : Ref × Heap}
    (eligible : Eligible limits.maxRank request)
    (above : limits.cellsInTree < requestedCells request)
    (below : requestedCells request ≤ limits.cellsInMemory)
    (tree : inTree = .error (.rejected (.tooManyCells (requestedCells request) limits.cellsInTree)))
    (memory : inMemory = .ok built) : AgreeApartFromBand limits request inTree inMemory := by
  subst tree memory
  unfold Limits.cellsInTree at above
  -- the caller allows this many cells, so it is the width of the slots that does not
  have allowed : requestedCells request ≤ limits.maxCells :=
    Nat.le_trans below (Nat.min_le_left _ _)
  have wide : (2 ^ 63 - 1) / 24 < requestedCells request := by omega
  have limit : limits.cellsInTree = (2 ^ 63 - 1) / 24 := by
    unfold Limits.cellsInTree
    omega
  constructor
  case band_iff => exact iff_of_true ⟨⟨built, rfl⟩, _, rfl⟩ ⟨eligible, wide, below⟩
  case band_reason =>
    rintro - _ ⟨⟩
    rw [limit]
  case same =>
    intro narrow
    omega
  case sameReason =>
    intro reason other
    have counted : .tooManyCells (requestedCells request) limits.cellsInTree ≠ reason :=
      (other _ _).symm
    simp [counted]
  all_goals simp

theorem agreeApartFromBand_of_large
    (large : limits.cellsInMemory < requestedCells request)
    (tree : inTree = .error (.rejected (.tooManyCells (requestedCells request) limits.cellsInTree)))
    (memory : inMemory =
      .error (.rejected (.tooManyCells (requestedCells request) limits.cellsInMemory))) :
    AgreeApartFromBand limits request inTree inMemory := by
  subst tree memory
  constructor
  case band_iff =>
    refine iff_of_false ?_ ?_
    · rintro ⟨⟨built, ⟨⟩⟩, -⟩
    · rintro ⟨-, -, below⟩
      exact absurd below (Nat.not_le.2 large)
  case sameCount =>
    rintro n limit n' limit' ⟨⟩ ⟨⟩
    rfl
  case sameReason =>
    intro reason other
    have inTree := (other (requestedCells request) limits.cellsInTree).symm
    have inMemory := (other (requestedCells request) limits.cellsInMemory).symm
    simp [inTree, inMemory]
  case same =>
    intro narrow
    have limit : limits.cellsInTree = limits.cellsInMemory := by
      unfold Limits.cellsInTree Limits.cellsInMemory
      omega
    simp [limit]
  all_goals simp

/-- Under the same limits, the checked builders agree on every request whose cells are not in the
band between the limits that go with their slots.  In that band memory holds what a tree cannot. -/
theorem tryBuild_agreeApartFromBand (limits : Limits) (request : List Int64) (h : Heap) :
    AgreeApartFromBand limits request (Tree.tryBuild limits request).result
      (Heap.tryBuild limits request h).result := by
  by_cases eligible : Eligible limits.maxRank request
  · rcases Nat.lt_or_ge limits.cellsInMemory (requestedCells request) with large | fits
    · have above : limits.cellsInTree < requestedCells request := by
        unfold Limits.cellsInTree
        unfold Limits.cellsInMemory at large
        omega
      exact agreeApartFromBand_of_large large (Tree.result_of_many eligible above)
        (Heap.result_of_many eligible large h)
    · obtain ⟨root, h', memory, read⟩ := Heap.result_of_few eligible fits h
      rcases Nat.lt_or_ge limits.cellsInTree (requestedCells request) with above | few
      · exact agreeApartFromBand_of_band eligible above fits (Tree.result_of_many eligible above)
          memory
      · exact agreeApartFromBand_of_built few (Tree.result_of_few eligible few) memory read
  · obtain ⟨reason, other, refused⟩ := Limits.accept_of_not_eligible eligible
    exact agreeApartFromBand_of_ineligible eligible other
      (Limits.result_buildWith_of_error _ (refused _ rfl))
      (Limits.result_buildWith_of_error _ (refused _ rfl))

/-- The shortest list of numbers that is not admitted as a tree, though the caller sets no limit. -/
theorem tryBuild_apart_above_slots :
    let limits : Limits := ⟨1, 2 ^ 64 - 1⟩
    let request : List Int64 := [384307168202282325]
    (Tree.tryBuild limits request).result =
        .error (.rejected (.tooManyCells 384307168202282326 384307168202282325)) ∧
      ∃ built, (Heap.tryBuild limits request .empty).result = .ok built := by
  intro limits request
  have agree := tryBuild_agreeApartFromBand limits request .empty
  have count : requestedCells request = 384307168202282326 := by
    rw [requestedCells, show request.map (fun e => e.toInt.toNat) = [384307168202282325] from rfl,
      cellsByLevel_cons]
    rfl
  have eligible : Eligible limits.maxRank request := by
    refine ⟨by simp [request], by simp [request, limits], by simp [request], ?_⟩
    rw [count]
    decide
  have band := agree.band_iff
  have reason := agree.band_reason
  rw [count] at band reason
  obtain ⟨memory, failure, tree⟩ := band.2 ⟨eligible, by decide, by decide⟩
  exact ⟨tree.trans (congrArg Except.error (reason memory failure tree)), memory⟩

end ArrayLayout
