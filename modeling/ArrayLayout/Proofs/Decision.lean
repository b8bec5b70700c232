/-
Decisions on requests, one check after the other.

`Limits.accept` stops at the first check that fails, and each check fails for one reason.
The last two are about the exact number of cells: it does not fit in a word, or it fits and
is above the limit in force.

* `Shape.ofRequestFrom_eq_error_iff` — the reason is the first negative extent;
* `Shape.cells_exact_reinterpret` — cells of the shape that a request without negative
  extents asks for;
* `Limits.accept_of_shape` — the decision on a request that has a shape;
* `Limits.effectiveMaxCells_clampTo_of_le` — the limit in force for a builder of wider slots.
-/
import ArrayLayout.Proofs.Admission
import ArrayLayout.Proofs.Overflow

namespace ArrayLayout

namespace Shape

/-- A request has no shape because of the first extent that is negative. -/
theorem ofRequestFrom_eq_error_iff {request : List Int64} {depth : Nat} {reason : Rejection} :
    ofRequestFrom depth request = .error reason ↔
      ∃ k e, request[k]? = some e ∧ e < 0 ∧ (∀ j < k, ∀ d, request[j]? = some d → ¬d < 0) ∧
        reason = .negativeExtent (depth + k) e.toInt := by
  induction request generalizing depth with
  | nil => simp [ofRequestFrom]
  | cons extent rest ih =>
    by_cases negative : extent < 0
    · rw [ofRequestFrom_cons_of_neg negative, Except.error.injEq]
      constructor
      · rintro rfl
        exact ⟨0, extent, rfl, negative, by simp, rfl⟩
      · rintro ⟨k, e, found, -, first, rfl⟩
        -- no extent comes before the first one
        cases k with
        | zero =>
          obtain rfl : extent = e := by simpa using found
          rfl
        | succ k => exact absurd negative (first 0 (by omega) extent rfl)
    · rw [ofRequestFrom_cons_of_not_neg negative]
      refine except_bind_eq_error_iff.trans ?_
      simp only [reduceCtorEq, and_false, exists_false, or_false, ih]
      constructor
      · rintro ⟨k, e, found, below, first, rfl⟩
        refine ⟨k + 1, e, by simpa using found, below, fun j lt d there => ?_, by
          rw [Nat.add_assoc, Nat.add_comm 1]⟩
        cases j with
        | zero =>
          obtain rfl : extent = d := by simpa using there
          exact negative
        | succ j => exact first j (by omega) d (by simpa using there)
      · rintro ⟨k, e, found, below, first, rfl⟩
        cases k with
        | zero =>
          obtain rfl : extent = e := by simpa using found
          exact absurd below negative
        | succ k =>
          refine ⟨k, e, by simpa using found, below, fun j lt d there => ?_, by
            rw [Nat.add_assoc, Nat.add_comm 1]⟩
          exact first (j + 1) (by omega) d (by simpa using there)

theorem ofRequest_of_negative {request : List Int64} (negative : ∃ e ∈ request, e < 0) :
    ∃ depth extent, ofRequest request = .error (.negativeExtent depth extent) := by
  cases shape : ofRequest request with
  | ok s =>
    obtain ⟨e, used, below⟩ := negative
    exact absurd below ((ofRequest_eq_ok_iff.1 shape).2.1 e used)
  | error reason =>
    cases request with
    | nil => simp at negative
    | cons extent rest =>
      obtain ⟨k, e, -, -, -, rfl⟩ := ofRequestFrom_eq_error_iff.1 shape
      exact ⟨_, _, rfl⟩

/-- A signed extent that is not negative is the same number as a word. -/
theorem toNat_toUInt64 {e : Int64} (sign : ¬e < 0) :
    e.toUInt64.toNat = e.toInt.toNat ∧ e.toInt.toNat < 2 ^ 63 := by
  have word : e.toUInt64.toNat = e.toBitVec.toNat := rfl
  have signed : e.toInt = e.toBitVec.toInt := rfl
  have small := e.toInt_lt
  have bits := e.toBitVec.isLt
  rw [Int64.lt_iff_toInt_lt, Int64.toInt_zero] at sign
  rw [BitVec.toInt_eq_toNat_cond] at signed
  split at signed <;> omega

theorem toNat_lt_of_mem_reinterpret {request : List Int64} (signs : ∀ e ∈ request, ¬e < 0) :
    ∀ e ∈ reinterpret request, e.toNat < wordLimit - 1 := by
  intro e member
  obtain ⟨signed, used, rfl⟩ := List.mem_map.1 member
  obtain ⟨same, small⟩ := toNat_toUInt64 (signs signed used)
  rw [same, wordLimit]
  omega

/-- Cells of the shape that a request asks for. -/
theorem cells_exact_reinterpret {request : List Int64} (signs : ∀ e ∈ request, ¬e < 0) :
    (Footprint.exact (reinterpret request)).cells =
      cellsByLevel (request.map fun e => e.toInt.toNat) := by
  rw [Footprint.cells_exact, reinterpret, List.map_map]
  congr 1
  refine List.map_congr_left ?_
  intro e used
  exact (toNat_toUInt64 (signs e used)).1

end Shape

namespace Limits

variable {l : Limits} {request : List Int64} {s : Shape}

/-- The decision on a request that has a shape, by the exact number of its cells. -/
theorem accept_of_shape (rank : request.length ≤ l.maxRank)
    (shape : Shape.ofRequest request = .ok s) :
    l.accept request =
      if wordLimit ≤ (Footprint.exact s).cells then .error .countOverflow
      else if l.effectiveMaxCells < (Footprint.exact s).cells then
        .error (.tooManyCells (Footprint.exact s).cells l.effectiveMaxCells)
      else .ok (s, Footprint.exact s) := by
  obtain ⟨nonempty, signs, rfl⟩ := Shape.ofRequest_eq_ok_iff.1 shape
  have dims := Shape.reinterpret_ne_nil nonempty
  have overflow := Footprint.of?_eq_none_iff dims (Shape.toNat_lt_of_mem_reinterpret signs)
  cases counted : Footprint.of? (Shape.reinterpret request) with
  | none => rw [accept_of_none rank shape counted, if_pos (overflow.1 counted)]
  | some f =>
    have word : ¬wordLimit ≤ (Footprint.exact (Shape.reinterpret request)).cells := by
      intro large
      rw [overflow.2 large] at counted
      cases counted
    obtain rfl := Footprint.of?_eq_some counted dims
    rw [accept_of_some rank shape counted, if_neg word]

/-- A limit that goes with slots at least as wide as a cell is the one in force. -/
theorem effectiveMaxCells_clampTo_of_le {bytes : Nat} (wide : cellBytes ≤ bytes) (l : Limits) :
    (l.clampTo bytes).effectiveMaxCells = min l.maxCells (maxBlockBytes / bytes) := by
  have fewer : maxBlockBytes / bytes ≤ maxAddressableCells :=
    Nat.div_le_div_left wide (by decide)
  show min (min l.maxCells (maxBlockBytes / bytes)) maxAddressableCells = _
  omega

end Limits

end ArrayLayout
