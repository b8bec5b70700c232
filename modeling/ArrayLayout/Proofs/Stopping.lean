/-
Where the builders stop.

The arrays of a shape are checked along the leftmost path, and below an array without elements
there are none to check.  So the first extent decides that is zero or fails its check: at a
zero the builder is done with checking, and at any other it stops.  Extents behind it are not
looked at.

A negative extent is a very large word and fails its check, if it is looked at.

* `Shape.check_eq_drop` — extents that pass and are not zero can be left out;
* `checkBlock_cases`, `checkBlock_toUInt64_eq_ok_iff` — the check of a signed extent;
* `Call.run_of_negative` — what becomes of a call with a negative extent;
* `Call.run_of_negative_behind_zero` — not every such call stops.
-/
import ArrayLayout.Entry
import ArrayLayout.Proofs.Decision

namespace ArrayLayout

namespace Shape

variable {leaf interior : UInt64 → Except Fault Unit} {s : Shape} {k : Nat}

/-- Extents that pass their check, and have elements, leave the decision to the others. -/
theorem check_eq_drop (bound : k < s.length)
    (passed : ∀ j < k, ∀ d, s[j]? = some d → d ≠ 0 ∧ interior d = .ok ()) :
    s.check leaf interior = check leaf interior (s.drop k) := by
  induction k generalizing s with
  | zero => rw [List.drop_zero]
  | succ k ih =>
    match s with
    | [] => simp at bound
    | [extent] => simp at bound
    | extent :: next :: inner =>
      obtain ⟨elements, own⟩ := passed 0 (Nat.succ_pos k) extent rfl
      have below := ih (s := next :: inner) (by simpa using bound) fun j lt d found =>
        passed (j + 1) (by omega) d (by simpa using found)
      rw [check_cons_cons, own, List.drop_succ_cons, ← below]
      exact if_neg elements

/-- At a zero that is not the last extent, the decision is made. -/
theorem check_zero_cons (next : UInt64) (inner : Shape) :
    check leaf interior (0 :: next :: inner) = interior 0 := by
  rw [check_cons_cons]
  cases interior 0 <;> rfl

/-- With one check for all arrays, the first extent that fails it is the fault. -/
theorem check_cons_of_error {fault : Fault} {extent : UInt64} (inner : Shape)
    (own : interior extent = .error fault) :
    check interior interior (extent :: inner) = .error fault := by
  cases inner with
  | nil => exact own
  | cons next inner =>
    rw [check_cons_cons, own]
    rfl

end Shape

/-! ### Signed extents -/

theorem checkBlock_cases (extent : UInt64) :
    checkBlock extent = .ok () ∨ checkBlock extent = .error (.unaddressable extent) := by
  unfold checkBlock blockLayout
  split
  · exact .inl rfl
  · exact .inr rfl

/-- A negative extent is taken for a word in the upper half. -/
theorem Shape.le_toNat_toUInt64 {e : Int64} (negative : e < 0) : 2 ^ 63 ≤ e.toUInt64.toNat := by
  have word : e.toUInt64.toNat = e.toBitVec.toNat := rfl
  have signed : e.toInt = e.toBitVec.toInt := rfl
  rw [Int64.lt_iff_toInt_lt, Int64.toInt_zero] at negative
  rw [BitVec.toInt_eq_toNat_cond] at signed
  split at signed <;> omega

/-- The block of an array fits in memory for signed extents from zero to `2 ^ 60 - 2`. -/
theorem checkBlock_toUInt64_eq_ok_iff {e : Int64} :
    checkBlock e.toUInt64 = .ok () ↔ 0 ≤ e.toInt ∧ e.toInt < 2 ^ 60 - 1 := by
  rw [checkBlock_eq_ok_iff, maxAddressableCells, maxBlockBytes, cellBytes]
  have sign : e < 0 ↔ e.toInt < 0 := by rw [Int64.lt_iff_toInt_lt, Int64.toInt_zero]
  by_cases negative : e < 0
  · have large := Shape.le_toNat_toUInt64 negative
    rw [sign] at negative
    omega
  · have value := (Shape.toNat_toUInt64 negative).1
    rw [sign] at negative
    omega

/-- An extent that is neither zero nor negative nor too large is looked past. -/
theorem toUInt64_passes {e : Int64} (pos : 0 < e.toInt) (small : e.toInt < 2 ^ 60 - 1) :
    e.toUInt64 ≠ 0 ∧ checkBlock e.toUInt64 = .ok () := by
  refine ⟨?_, checkBlock_toUInt64_eq_ok_iff.2 ⟨by omega, small⟩⟩
  intro zero
  have sign : ¬e < 0 := by
    rw [Int64.lt_iff_toInt_lt, Int64.toInt_zero]
    omega
  have value := (Shape.toNat_toUInt64 sign).1
  rw [zero, UInt64.toNat_zero] at value
  omega

/-! ### Calls -/

namespace Call

variable {c : Call}

/-- The first of the extents that is zero, negative or too large, if there is one. -/
theorem exists_first_extent (negative : ∃ e ∈ c.extents, e < 0) :
    ∃ (k : Nat) (e : Int64), c.extents[k]? = some e ∧ (e.toInt ≤ 0 ∨ 2 ^ 60 - 1 ≤ e.toInt) ∧
      ∀ j < k, ∀ d : Int64, c.extents[j]? = some d → 0 < d.toInt ∧ d.toInt < 2 ^ 60 - 1 := by
  have some_index : ∃ (k : Nat) (e : Int64),
      c.extents[k]? = some e ∧ (e.toInt ≤ 0 ∨ 2 ^ 60 - 1 ≤ e.toInt) := by
    obtain ⟨e, used, below⟩ := negative
    obtain ⟨k, found⟩ := List.mem_iff_getElem?.1 used
    rw [Int64.lt_iff_toInt_lt, Int64.toInt_zero] at below
    exact ⟨k, e, found, .inl (by omega)⟩
  classical
  obtain ⟨e, found, decides⟩ := Nat.find_spec some_index
  refine ⟨_, e, found, decides, ?_⟩
  intro j lt d there
  have passes := Nat.find_min some_index lt
  have other := not_or.1 fun bad => passes ⟨d, there, bad⟩
  omega

/-- The shape behind extents that are looked past. -/
theorem check_shape_eq {k : Nat} {e : Int64} (found : c.extents[k]? = some e)
    (first : ∀ j < k, ∀ d : Int64, c.extents[j]? = some d → 0 < d.toInt ∧ d.toInt < 2 ^ 60 - 1) :
    c.shape.check checkBlock checkBlock =
      Shape.check checkBlock checkBlock (e.toUInt64 :: c.shape.drop (k + 1)) := by
  obtain ⟨bound, rfl⟩ := List.getElem?_eq_some_iff.1 found
  have short : k < c.shape.length := by
    rwa [shape, Shape.length_reinterpret]
  rw [Shape.check_eq_drop short, List.drop_eq_getElem_cons short]
  · simp [shape, Shape.reinterpret]
  · intro j lt d there
    obtain ⟨signed, used, rfl⟩ : ∃ a, c.extents[j]? = some a ∧ a.toUInt64 = d := by
      simpa [shape, Shape.reinterpret] using there
    obtain ⟨pos, small⟩ := first j lt signed used
    exact toUInt64_passes pos small

/-- A call with a negative extent is decided by the first of its extents that is zero, negative
or too large.  If that one is zero an array is returned, and otherwise the call stops with the
fault of that extent. -/
theorem run_of_negative (negative : ∃ e ∈ c.extents, e < 0) (h : Heap) :
    ∃ (k : Nat) (e : Int64), c.extents[k]? = some e ∧
      (∀ j < k, ∀ d : Int64, c.extents[j]? = some d → 0 < d.toInt ∧ d.toInt < 2 ^ 60 - 1) ∧
      (e.toInt ≤ 0 ∨ 2 ^ 60 - 1 ≤ e.toInt) ∧
      (e = 0 → ∃ array h', (c.run h).result = .ok (array, h')) ∧
      (e ≠ 0 → ∃ fault, (c.run h).result = .error fault ∧ fault = .unaddressable e.toUInt64 ∧
        fault.message =
          "array extent " ++ e.toUInt64.toNat.repr ++ " exceeds the address space") := by
  obtain ⟨k, e, found, decides, first⟩ := exists_first_extent negative
  refine ⟨k, e, found, first, decides, ?_, ?_⟩
  · rintro rfl
    -- the negative extent comes after the zero, so the zero is not the last extent
    obtain ⟨e, used, below⟩ := negative
    obtain ⟨i, there⟩ := List.mem_iff_getElem?.1 used
    rw [Int64.lt_iff_toInt_lt, Int64.toInt_zero] at below
    have later : k < i := by
      rcases Nat.lt_trichotomy i k with lt | rfl | gt
      · have pos := (first i lt e there).1
        omega
      · obtain rfl : e = 0 := Option.some_inj.1 (there.symm.trans found)
        simp at below
      · exact gt
    obtain ⟨bound, -⟩ := List.getElem?_eq_some_iff.1 there
    have short : k + 1 < c.shape.length := by
      rw [shape, Shape.length_reinterpret]
      omega
    have passed := check_shape_eq found first
    rw [List.drop_eq_getElem_cons short] at passed
    obtain ⟨h', ran, -⟩ := Heap.run_build_of_check (passed.trans (Shape.check_zero_cons _ _)) h
    exact ⟨h.next, h', ran⟩
  · intro other
    have failed : checkBlock e.toUInt64 = .error (.unaddressable e.toUInt64) := by
      rcases checkBlock_cases e.toUInt64 with fits | failed
      · have range := checkBlock_toUInt64_eq_ok_iff.1 fits
        have zero : e.toInt ≠ 0 := fun zero => other (Int64.toInt_inj.1 zero)
        omega
      · exact failed
    have stops := (check_shape_eq found first).trans (Shape.check_cons_of_error _ failed)
    exact ⟨_, Heap.run_build_of_fault stops h, rfl, rfl⟩

/-- A negative extent that comes before a zero extent, in a call of its own rank. -/
theorem run_of_negative_before_zero :
    (∃ e ∈ (fixed [2, -1, 0] (by decide) (by decide)).extents, e < 0) ∧
      ((fixed [2, -1, 0] (by decide) (by decide)).run .empty).result =
        .error (.unaddressable 0xFFFF_FFFF_FFFF_FFFF) := by
  have negative : ∃ e ∈ (fixed [2, -1, 0] (by decide) (by decide)).extents, e < 0 :=
    ⟨-1, by decide, by decide⟩
  obtain ⟨k, e, found, first, decides, -, stops⟩ := run_of_negative negative .empty
  refine ⟨negative, ?_⟩
  match k with
  | 0 =>
    obtain rfl : 2 = e := Option.some_inj.1 found
    exact absurd decides (by decide)
  | 1 =>
    obtain rfl : -1 = e := Option.some_inj.1 found
    obtain ⟨fault, result, rfl, -⟩ := stops (by decide)
    exact result
  | k + 2 =>
    have passes := (first 1 (by omega) (-1) rfl).1
    exact absurd passes (by decide)

/-- A call with a negative extent behind a zero extent returns an array without elements. -/
theorem run_of_negative_behind_zero :
    (∃ e ∈ (general 2 (some [0, -1])).extents, e < 0) ∧
      ∃ array h', ((general 2 (some [0, -1])).run .empty).result = .ok (array, h') ∧
        h'.tree? 2 array = some (.interior 0 []) :=
  ⟨⟨-1, by decide, by decide⟩, _, _, rfl, rfl⟩

end Call

end ArrayLayout
