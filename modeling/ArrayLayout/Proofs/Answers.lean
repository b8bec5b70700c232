/-
The answers of the checked entry point.

The entry point looks at its pointers and its count first, then at the request, and only
then builds.  Every answer has a row in one table, and the first row that applies gives the
number of the answer.  Nothing in the table is about a fault: an admitted request is always
built.

* `answerCode` — the table;
* `tryAllocate_of_reject`, `tryAllocate_of_accept` — the entry point follows the decision on
  the request;
* `code_eq_answerCode` — so its number is that of the table;
* `tryAllocate_follows_answerCode` — the same for all arguments, and what is handed out.
-/
import ArrayLayout.Entry
import ArrayLayout.Proofs.Agreement
import ArrayLayout.Proofs.Decision

namespace ArrayLayout

/-- Number of the answer to these arguments: the first row that applies. -/
def answerCode (count : Int) (extents : Option (List Int64)) (bounds : Limits)
    (hasPlace : Bool) : Int :=
  if hasPlace = false ∨ count < 0 ∨ 0 < count ∧ extents = none then -1
  else if count = 0 ∨ bounds.maxRank < count then -2
  else if ∃ e ∈ readExtents count extents, e < 0 then -3
  else if min bounds.maxCells (2 ^ 60 - 1) <
      cellsByLevel ((readExtents count extents).map fun e => e.toInt.toNat) then -4
  else 0

variable {count : Int} {extents : Option (List Int64)} {limits : Option Limits}
  {bounds : Limits} {hasPlace : Bool} {h : Heap}

theorem readable_iff : readable count extents hasPlace = true ↔
    ¬(hasPlace = false ∨ count < 0 ∨ 0 < count ∧ extents = none) := by
  cases extents <;> cases hasPlace <;> simp [readable]
  omega

/-- A list that is long enough gives as many extents as were asked for. -/
theorem length_readExtents (reads : readable count extents hasPlace = true)
    (enough : ∀ xs, extents = some xs → count ≤ xs.length) :
    (readExtents count extents).length = count := by
  rw [readable_iff] at reads
  cases extents with
  | none =>
    have zero : count = 0 := by
      simp only [and_true, not_or, not_lt] at reads
      omega
    simp [readExtents, zero]
  | some xs =>
    have short := enough xs rfl
    rw [readExtents, List.length_take]
    omega

/-! ### Following the decision -/

theorem tryAllocate_of_not_readable (reads : readable count extents hasPlace = false) :
    (tryAllocate count extents limits hasPlace h).result = ⟨.invalidArgument, none, h⟩ := by
  simp [tryAllocate, reads]

theorem tryAllocate_of_reject {reason : Rejection}
    (reads : readable count extents hasPlace = true)
    (refused : ((limits.getD .standard).clampTo cellBytes).accept (readExtents count extents) =
      .error reason) :
    (tryAllocate count extents limits hasPlace h).result =
      ⟨.ofRejection reason, none, h⟩ := by
  have result : (Heap.tryBuild (limits.getD .standard) (readExtents count extents) h).result =
      .error (.rejected reason) := Limits.result_buildWith_of_error _ refused
  simp only [tryAllocate, reads, Bool.not_true, Bool.false_eq_true, if_false, Logged.result_bind,
    result]
  rfl

theorem tryAllocate_of_accept {s : Shape} {f : Footprint}
    (reads : readable count extents hasPlace = true)
    (accepted : ((limits.getD .standard).clampTo cellBytes).accept (readExtents count extents) =
      .ok (s, f)) :
    ∃ h', (tryAllocate count extents limits hasPlace h).result = ⟨.ok, some h.next, h'⟩ ∧
      (Heap.build s).run h = .ok (h.next, h') ∧ Heap.Built h h' (Tree.zeros s) := by
  obtain ⟨h', ran, built, result⟩ := Heap.tryBuild_of_accept h accepted
  refine ⟨h', ?_, ran, built⟩
  simp only [tryAllocate, reads, Bool.not_true, Bool.false_eq_true, if_false, Logged.result_bind,
    result]
  rfl

/-- The answer to a request that was decided like this. -/
def Status.ofDecision : Except Rejection (Shape × Footprint) → Status
  | .error reason => ofRejection reason
  | .ok _ => ok

theorem status_of_accept {decision : Except Rejection (Shape × Footprint)}
    (reads : readable count extents hasPlace = true)
    (decided : ((limits.getD .standard).clampTo cellBytes).accept (readExtents count extents) =
      decision) :
    (tryAllocate count extents limits hasPlace h).result.status = .ofDecision decision := by
  cases decision with
  | error reason =>
    rw [tryAllocate_of_reject reads decided]
    rfl
  | ok admitted =>
    obtain ⟨h', result, -⟩ := tryAllocate_of_accept (h := h) reads decided
    rw [result]
    rfl

/-! ### The table -/

theorem effectiveMaxCells_clampTo (bounds : Limits) :
    (bounds.clampTo cellBytes).effectiveMaxCells = min bounds.maxCells (2 ^ 60 - 1) :=
  Limits.effectiveMaxCells_clampTo_of_le (Nat.le_refl _) bounds

theorem code_eq_answerCode (enough : ∀ xs, extents = some xs → count ≤ xs.length) :
    (tryAllocate count extents limits hasPlace h).result.status.code =
      answerCode count extents (limits.getD .standard) hasPlace := by
  by_cases reads : readable count extents hasPlace = true
  · have used := length_readExtents reads enough
    rw [answerCode, if_neg (readable_iff.1 reads)]
    -- the rows of the table come in the order of the checks
    by_cases range : count = 0 ∨ (limits.getD .standard).maxRank < count
    · rw [if_pos range]
      rcases range with none | above
      · have empty : readExtents count extents = [] := List.eq_nil_of_length_eq_zero (by omega)
        have decided := Limits.accept_of_error (l := (limits.getD .standard).clampTo cellBytes)
          (Nat.zero_le _) (rfl : Shape.ofRequest [] = .error .noExtents)
        rw [← empty] at decided
        rw [status_of_accept reads decided]
        rfl
      · have long : ((limits.getD .standard).clampTo cellBytes).maxRank <
            (readExtents count extents).length := by
          show (limits.getD .standard).maxRank < _
          omega
        rw [status_of_accept reads (Limits.accept_of_rank long)]
        rfl
    rw [if_neg range]
    have rank : (readExtents count extents).length ≤
        ((limits.getD .standard).clampTo cellBytes).maxRank := by
      show _ ≤ (limits.getD .standard).maxRank
      omega
    have some_dims : readExtents count extents ≠ [] := by
      intro empty
      rw [empty] at used
      simp at used
      omega
    by_cases signs : ∃ e ∈ readExtents count extents, e < 0
    · rw [if_pos signs]
      obtain ⟨depth, extent, shapeless⟩ := Shape.ofRequest_of_negative signs
      rw [status_of_accept reads (Limits.accept_of_error rank shapeless)]
      rfl
    rw [if_neg signs]
    have unsigned : ∀ e ∈ readExtents count extents, ¬e < 0 := by
      intro e member below
      exact signs ⟨e, member, below⟩
    have shape := Shape.ofRequest_eq_ok_iff.2 ⟨some_dims, unsigned, rfl⟩
    rw [status_of_accept reads (Limits.accept_of_shape rank shape), effectiveMaxCells_clampTo,
      Shape.cells_exact_reinterpret unsigned]
    -- a number of cells that is too large for a word is above every limit
    by_cases many : min (limits.getD .standard).maxCells (2 ^ 60 - 1) <
        cellsByLevel ((readExtents count extents).map fun e => e.toInt.toNat)
    · rw [if_pos many]
      split_ifs <;> rfl
    · have word : ¬wordLimit ≤ cellsByLevel ((readExtents count extents).map
          fun e => e.toInt.toNat) := by
        rw [wordLimit]
        omega
      rw [if_neg many, if_neg word, if_neg many]
      rfl
  · rw [answerCode, if_pos]
    · rw [tryAllocate_of_not_readable (by simpa using reads)]
      rfl
    · by_contra row
      exact reads (readable_iff.2 row)

/-! ### What is handed out -/

theorem code_ofRejection (reason : Rejection) :
    (Status.ofRejection reason).code < 0 ∧ (Status.ofRejection reason).code ≠ -5 := by
  cases reason <;> simp [Status.ofRejection, Status.code]

/-- Either nothing is handed out and the answer is negative, or an accepted request was
built. -/
theorem tryAllocate_cases (count : Int) (extents : Option (List Int64)) (limits : Option Limits)
    (hasPlace : Bool) (h : Heap) :
    (∃ status, (tryAllocate count extents limits hasPlace h).result = ⟨status, none, h⟩ ∧
        status.code < 0 ∧ status.code ≠ -5) ∨
      ∃ s f h', readable count extents hasPlace = true ∧
        ((limits.getD .standard).clampTo cellBytes).accept (readExtents count extents) =
          .ok (s, f) ∧
        (tryAllocate count extents limits hasPlace h).result = ⟨.ok, some h.next, h'⟩ ∧
        Heap.Built h h' (Tree.zeros s) := by
  by_cases reads : readable count extents hasPlace = true
  · cases decided : ((limits.getD .standard).clampTo cellBytes).accept
        (readExtents count extents) with
    | error reason =>
      exact .inl ⟨_, tryAllocate_of_reject reads decided, code_ofRejection reason⟩
    | ok admitted =>
      obtain ⟨s, f⟩ := admitted
      obtain ⟨h', result, -, built⟩ := tryAllocate_of_accept (h := h) reads decided
      exact .inr ⟨s, f, h', reads, rfl, result, built⟩
  · exact .inl ⟨_, tryAllocate_of_not_readable (by simpa using reads), by decide, by decide⟩

/-- An accepted request is the nested array that the unchecked entry point builds for the
same arguments, whatever is in memory there. -/
theorem readTree_of_accept {s : Shape} {f : Footprint} {h' : Heap}
    (accepted : ((limits.getD .standard).clampTo cellBytes).accept (readExtents count extents) =
      .ok (s, f)) (built : Heap.Built h h' (Tree.zeros s)) (h₂ : Heap) :
    ∃ root₂ h₂' t, ((Call.general count extents).run h₂).result = .ok (root₂, h₂') ∧
      h'.readTree (readExtents count extents).length h.next = .ok (some t) ∧
      h₂'.readTree (readExtents count extents).length root₂ = .ok (some t) := by
  obtain ⟨nonempty, shape, -, -⟩ := Limits.shape_of_accept accepted
  obtain ⟨h₂', ran, built₂, -⟩ := Heap.tryBuild_of_accept h₂ accepted
  have rank : (readExtents count extents).length = s.length := by
    rw [shape, Shape.length_reinterpret]
  rw [rank]
  refine ⟨h₂.next, h₂', Tree.zeros s, ?_, built.readTree_zeros nonempty,
    built₂.readTree_zeros nonempty⟩
  rw [Call.result_run, ← ran, shape]
  rfl

/-- The checked entry point answers by the table, never with a fault.  It hands out an array
exactly if the answer is zero, and then the array is the one that the unchecked entry point
builds for the same arguments.  Extents behind the first `count` ones do not matter. -/
theorem tryAllocate_follows_answerCode (limits : Option Limits) (hasPlace : Bool) (h : Heap)
    (enough : ∀ xs, extents = some xs → count ≤ xs.length) :
    ∃ answer, (tryAllocate count extents limits hasPlace h).result = answer ∧
      answer.status.code = answerCode count extents (limits.getD ⟨32, 2 ^ 31⟩) hasPlace ∧
      answer.status.code ≠ -5 ∧
      (answer.array.isSome = true ↔ answer.status.code = 0) ∧
      (∀ root, answer.array = some root → ∀ h₂, ∃ root₂ h₂' t,
        ((Call.general count extents).run h₂).result = .ok (root₂, h₂') ∧
          answer.heap.readTree count.toNat root = .ok (some t) ∧
          h₂'.readTree count.toNat root₂ = .ok (some t)) ∧
      ∀ xs ys, extents = some xs → ys.take count.toNat = xs.take count.toNat →
        tryAllocate count (some ys) limits hasPlace h =
          tryAllocate count extents limits hasPlace h := by
  refine ⟨_, rfl, code_eq_answerCode enough, ?_, ?_, ?_, ?_⟩
  · rcases tryAllocate_cases count extents limits hasPlace h with
      ⟨status, result, -, running⟩ | ⟨s, f, h', -, -, result, -⟩
    · rw [result]
      exact running
    · rw [result]
      simp [Status.code]
  · rcases tryAllocate_cases count extents limits hasPlace h with
      ⟨status, result, negative, -⟩ | ⟨s, f, h', -, -, result, -⟩
    · rw [result]
      simp only [Option.isSome_none, Bool.false_eq_true, false_iff]
      omega
    · rw [result]
      simp [Status.code]
  · intro root handed h₂
    rcases tryAllocate_cases count extents limits hasPlace h with
      ⟨status, result, -, -⟩ | ⟨s, f, h', reads, accepted, result, built⟩
    · rw [result] at handed
      cases handed
    · rw [result] at handed
      cases handed
      have used := length_readExtents reads enough
      have rank : count.toNat = (readExtents count extents).length := by omega
      rw [result, rank]
      exact readTree_of_accept accepted built h₂
  · rintro xs ys rfl same
    simp only [tryAllocate, readable, readExtents, same, Option.isSome_some]
    rfl

/-- A request with an extent more than its count says, under limits that it meets exactly.  What is
handed out is read as the tree that a call of the unchecked entry point leaves behind in memory
that is in use. -/
theorem tryAllocate_two_rows :
    (∀ xs, some [2, 3, -1] = some xs → (2 : Int) ≤ (xs : List Int64).length) ∧
      ∃ answer root,
        (tryAllocate 2 (some [2, 3, -1]) (some ⟨2, 11⟩) true .empty).result = answer ∧
        answer.status.code = 0 ∧ answer.array = some root ∧
        answer.heap.readTree 2 root =
          .ok (some (.interior 2 [.leaf ⟨[3, 0, 0, 0]⟩, .leaf ⟨[3, 0, 0, 0]⟩])) := by
  have enough : ∀ xs, some [2, 3, -1] = some xs → (2 : Int) ≤ (xs : List Int64).length := by
    rintro xs ⟨rfl⟩
    decide
  obtain ⟨answer, result, code, -, written, handed, -⟩ :=
    tryAllocate_follows_answerCode (some ⟨2, 11⟩) true .empty enough
  have zero : answer.status.code = 0 := by
    rw [code]
    decide
  obtain ⟨root, placed⟩ := Option.isSome_iff_exists.1 (written.2 zero)
  obtain ⟨root₂, h₂, t, called, read, read₂⟩ := handed root placed ⟨#[some [.num 7], none]⟩
  -- where the unchecked call puts its array, and what is read there
  have unchecked : ((Call.general 2 (some [2, 3, -1])).run ⟨#[some [.num 7], none]⟩).result =
      .ok (⟨2⟩, ⟨#[some [.num 7], none, some [.num 2, .ref ⟨3⟩, .ref ⟨4⟩],
        some [.num 3, .num 0, .num 0, .num 0], some [.num 3, .num 0, .num 0, .num 0]]⟩) := rfl
  rw [unchecked] at called
  cases called
  have tree : some (Tree.interior 2 [.leaf ⟨[3, 0, 0, 0]⟩, .leaf ⟨[3, 0, 0, 0]⟩]) = some t :=
    Except.ok.inj read₂
  rw [tree]
  exact ⟨enough, answer, root, result, zero, placed, read⟩

end ArrayLayout
