/-
Requests that are admitted, and what becomes of them.

A checked builder decides once, on the total number of cells, and then calls the
unchecked builder.  No array of an admitted request is larger than memory allows, so
the unchecked builder never stops.

* `Shape.ofRequest_eq_ok_iff` — requests that have a shape;
* `Limits.accept_of_rank`, `Limits.accept_of_error`, `Limits.accept_of_none`,
  `Limits.accept_of_some` — the checks, one by one;
* `Limits.accept_eq_ok_iff` — requests that are accepted;
* `Limits.check_of_accept` — an accepted request passes every check that single arrays
  within its limit pass;
* `Tree.tryBuild_of_accept`, `Heap.tryBuild_of_accept` — what an accepted request builds;
* `tryBuild_follows_accept` — a checked builder never stops.
-/
import ArrayLayout.Proofs.Construction

namespace ArrayLayout

namespace Shape

variable {extent : Int64} {rest : List Int64} {depth : Nat}

theorem ofRequestFrom_cons_of_neg (negative : extent < 0) :
    ofRequestFrom depth (extent :: rest) = .error (.negativeExtent depth extent.toInt) := by
  simp [ofRequestFrom, negative, throw, throwThe, MonadExceptOf.throw, bind, Except.bind]

theorem ofRequestFrom_cons_of_not_neg (sign : ¬extent < 0) :
    ofRequestFrom depth (extent :: rest) =
      (ofRequestFrom (depth + 1) rest).bind fun inner => .ok (extent.toUInt64 :: inner) := by
  rw [ofRequestFrom, if_neg sign]
  rfl

theorem ofRequestFrom_eq_ok_iff {request : List Int64} {s : Shape} :
    ofRequestFrom depth request = .ok s ↔ (∀ e ∈ request, ¬e < 0) ∧ s = reinterpret request := by
  induction request generalizing depth s with
  | nil =>
    show (Except.ok [] : Except Rejection Shape) = .ok s ↔ _
    simp [reinterpret, eq_comm]
  | cons extent rest ih =>
    by_cases negative : extent < 0
    · simp [ofRequestFrom_cons_of_neg negative, negative]
    · rw [ofRequestFrom_cons_of_not_neg negative]
      simp only [List.forall_mem_cons, negative, not_false_eq_true, true_and]
      refine except_bind_eq_ok_iff.trans ?_
      constructor
      · rintro ⟨inner, below, result⟩
        obtain ⟨all, rfl⟩ := ih.1 below
        cases result
        exact ⟨all, rfl⟩
      · rintro ⟨all, rfl⟩
        exact ⟨reinterpret rest, ih.2 ⟨all, rfl⟩, rfl⟩

theorem ofRequest_eq_ok_iff {request : List Int64} {s : Shape} :
    ofRequest request = .ok s ↔
      request ≠ [] ∧ (∀ e ∈ request, ¬e < 0) ∧ s = reinterpret request := by
  cases request with
  | nil => simp [ofRequest]
  | cons extent rest => simp [ofRequest, ofRequestFrom_eq_ok_iff]

theorem reinterpret_ne_nil {request : List Int64} (nonempty : request ≠ []) :
    reinterpret request ≠ [] := by
  simpa [reinterpret] using nonempty

end Shape

namespace Limits

/-! One equation for each check, in the order of the checks. -/

section

variable {l : Limits} {request : List Int64} {s : Shape} {f : Footprint}

theorem accept_of_rank (above : l.maxRank < request.length) :
    l.accept request = .error (.rankAboveLimit request.length l.maxRank) := by
  simp [accept, above, throw, throwThe, MonadExceptOf.throw, bind, Except.bind]

theorem accept_of_error {reason : Rejection} (rank : request.length ≤ l.maxRank)
    (shapeless : Shape.ofRequest request = .error reason) :
    l.accept request = .error reason := by
  simp [accept, Nat.not_lt.2 rank, shapeless, bind, Except.bind]

theorem accept_of_none (rank : request.length ≤ l.maxRank)
    (shape : Shape.ofRequest request = .ok s) (uncounted : Footprint.of? s = none) :
    l.accept request = .error .countOverflow := by
  simp [accept, Nat.not_lt.2 rank, shape, uncounted, throw, throwThe, MonadExceptOf.throw, bind,
    Except.bind]

theorem accept_of_some (rank : request.length ≤ l.maxRank)
    (shape : Shape.ofRequest request = .ok s) (counted : Footprint.of? s = some f) :
    l.accept request =
      if l.effectiveMaxCells < f.cells then .error (.tooManyCells f.cells l.effectiveMaxCells)
      else .ok (s, f) := by
  by_cases many : l.effectiveMaxCells < f.cells
  · simp [accept, Nat.not_lt.2 rank, shape, counted, many, throw, throwThe, MonadExceptOf.throw,
      bind, Except.bind, pure, Except.pure]
  · simp [accept, Nat.not_lt.2 rank, shape, counted, many, bind, Except.bind, pure, Except.pure]

end

/-- A request is accepted when it is within all limits; its extents become the shape. -/
theorem accept_eq_ok_iff {l : Limits} {request : List Int64} {s : Shape} {f : Footprint} :
    l.accept request = .ok (s, f) ↔
      request.length ≤ l.maxRank ∧ Shape.ofRequest request = .ok s ∧ Footprint.of? s = some f ∧
        f.cells ≤ l.effectiveMaxCells := by
  constructor
  · intro accepted
    -- a check that fails leaves no acceptance
    by_cases above : l.maxRank < request.length
    · rw [accept_of_rank above] at accepted
      cases accepted
    have rank : request.length ≤ l.maxRank := Nat.not_lt.1 above
    cases shape : Shape.ofRequest request with
    | error reason =>
      rw [accept_of_error rank shape] at accepted
      cases accepted
    | ok s' =>
      cases counted : Footprint.of? s' with
      | none =>
        rw [accept_of_none rank shape counted] at accepted
        cases accepted
      | some f' =>
        rw [accept_of_some rank shape counted] at accepted
        split at accepted
        · cases accepted
        · rename_i few
          cases accepted
          exact ⟨rank, rfl, counted, Nat.not_lt.1 few⟩
  · rintro ⟨rank, shape, counted, within⟩
    rw [accept_of_some rank shape counted, if_neg (Nat.not_lt.2 within)]

/-- An accepted request has the shape that its extents are, and the exact number of its
cells is within the limit. -/
theorem shape_of_accept {l : Limits} {request : List Int64} {s : Shape} {f : Footprint}
    (accepted : l.accept request = .ok (s, f)) :
    s ≠ [] ∧ s = Shape.reinterpret request ∧ f = Footprint.exact s ∧
      f.cells ≤ l.effectiveMaxCells := by
  obtain ⟨-, shape, counted, within⟩ := accept_eq_ok_iff.1 accepted
  obtain ⟨nonempty, -, rfl⟩ := Shape.ofRequest_eq_ok_iff.1 shape
  have some_dims := Shape.reinterpret_ne_nil nonempty
  exact ⟨some_dims, rfl, Footprint.of?_eq_some counted some_dims, within⟩

/-- An accepted request passes all checks that pass for single arrays within the limit. -/
theorem check_of_accept {l : Limits} {request : List Int64} {s : Shape} {f : Footprint}
    {leaf interior : UInt64 → Except Fault Unit} (accepted : l.accept request = .ok (s, f))
    (leafs : ∀ e : UInt64, e.toNat < l.maxCells → leaf e = .ok ())
    (interiors : ∀ e : UInt64, e.toNat < l.maxCells → interior e = .ok ()) :
    s.check leaf interior = .ok () := by
  obtain ⟨nonempty, -, rfl, within⟩ := shape_of_accept accepted
  exact Shape.check_of_cells leafs interiors nonempty
    (Nat.le_trans within (Nat.min_le_left _ _))

/-- A rejection is the result of a checked builder. -/
theorem result_buildWith_of_error {α : Type} {l : Limits} {slotBytes : Nat} {request : List Int64}
    {reason : Rejection} (build : Shape → Except Fault α)
    (refused : (l.clampTo slotBytes).accept request = .error reason) :
    (l.buildWith slotBytes build request).result = .error (.rejected reason) := by
  rw [buildWith, decide, refused]
  rfl

/-- A checked builder that accepts is the unchecked one. -/
theorem result_buildWith_of_ok {α : Type} {l : Limits} {slotBytes : Nat} {request : List Int64}
    {s : Shape} {f : Footprint} (build : Shape → Except Fault α)
    (accepted : (l.clampTo slotBytes).accept request = .ok (s, f)) :
    (l.buildWith slotBytes build request).result = (build s).mapError .stopped := by
  rw [buildWith, decide, accepted]
  rfl

end Limits

variable {limits : Limits} {request : List Int64} {s : Shape} {f : Footprint}

/-! ### Trees -/

/-- Under the limit of trees the cells of a leaf fit in memory. -/
theorem Leaf.check_of_lt {extent : UInt64} (bound : extent.toNat < maxBlockBytes / slotBytes) :
    Leaf.check extent = .ok () := by
  rw [maxBlockBytes, slotBytes] at bound
  rw [Leaf.check_eq_ok_iff, maxBlockBytes, cellBytes]
  omega

/-- Under the limit of trees the slots of an interior array fit in memory. -/
theorem Tree.checkSlots_of_lt {extent : UInt64}
    (bound : extent.toNat < maxBlockBytes / slotBytes) : Tree.checkSlots extent = .ok () := by
  rw [maxBlockBytes, slotBytes] at bound
  rw [Tree.checkSlots_eq_ok_iff, maxBlockBytes, slotBytes]
  omega

/-- The tree of an accepted request is built. -/
theorem Tree.tryBuild_of_accept
    (accepted : (limits.clampTo slotBytes).accept request = .ok (s, f)) :
    Tree.build s = .ok (Tree.zeros s) ∧
      (Tree.tryBuild limits request).result = .ok (Tree.zeros s) := by
  have passed : s.check Leaf.check Tree.checkSlots = .ok () :=
    Limits.check_of_accept accepted
      (fun e bound => Leaf.check_of_lt (Nat.lt_of_lt_of_le bound (Nat.min_le_right _ _)))
      (fun e bound => Tree.checkSlots_of_lt (Nat.lt_of_lt_of_le bound (Nat.min_le_right _ _)))
  have built := Tree.build_eq_ok_iff.2 ⟨passed, rfl⟩
  refine ⟨built, ?_⟩
  rw [Tree.tryBuild, Limits.result_buildWith_of_ok Tree.build accepted, built]
  rfl

/-- A tree that a checked builder returns is that of an accepted request. -/
theorem Tree.accept_of_tryBuild {t : Tree} (built : (Tree.tryBuild limits request).result = .ok t) :
    ∃ s f, (limits.clampTo slotBytes).accept request = .ok (s, f) ∧ t = Tree.zeros s := by
  cases decision : (limits.clampTo slotBytes).accept request with
  | error reason =>
    rw [Tree.tryBuild, Limits.result_buildWith_of_error Tree.build decision] at built
    cases built
  | ok admitted =>
    have result := (Tree.tryBuild_of_accept decision).2
    rw [built] at result
    cases result
    exact ⟨_, _, rfl, rfl⟩

/-! ### Blocks -/

/-- Under the limit of blocks an array in memory fits. -/
theorem checkBlock_of_lt {extent : UInt64} (bound : extent.toNat < maxBlockBytes / cellBytes) :
    checkBlock extent = .ok () := by
  rw [checkBlock_eq_ok_iff]
  exact bound

/-- The nested array of an accepted request is built in memory. -/
theorem Heap.tryBuild_of_accept (h : Heap)
    (accepted : (limits.clampTo cellBytes).accept request = .ok (s, f)) :
    ∃ h', (Heap.build s).run h = .ok (h.next, h') ∧ Heap.Built h h' (Tree.zeros s) ∧
      (Heap.tryBuild limits request h).result = .ok (h.next, h') := by
  have fits (e : UInt64) (bound : e.toNat < (limits.clampTo cellBytes).maxCells) :=
    checkBlock_of_lt (Nat.lt_of_lt_of_le bound (Nat.min_le_right _ _))
  obtain ⟨h', ran, built⟩ := Heap.run_build_of_check (Limits.check_of_accept accepted fits fits) h
  refine ⟨h', ran, built, ?_⟩
  rw [Heap.tryBuild, Limits.result_buildWith_of_ok (fun s => (Heap.build s).run h) accepted, ran]
  rfl

/-! ### Both -/

/-- A checked builder follows the decision on the request, under the limit that goes
with the width of its slots.  A rejection is handed on as it is; otherwise the result is
that of the unchecked builder, which does not stop.  So no fault ever comes back. -/
theorem tryBuild_follows_accept (limits : Limits) (request : List Int64) (h : Heap) :
    (match { limits with maxCells := min limits.maxCells ((2 ^ 63 - 1) / 24) }.accept request with
      | .error reason => (Tree.tryBuild limits request).result = .error (.rejected reason)
      | .ok _ => ∃ t, Tree.build (Shape.reinterpret request) = .ok t ∧
          (Tree.tryBuild limits request).result = .ok t) ∧
    (match { limits with maxCells := min limits.maxCells ((2 ^ 63 - 1) / 8) }.accept request with
      | .error reason => (Heap.tryBuild limits request h).result = .error (.rejected reason)
      | .ok _ => ∃ root h', (Heap.build (Shape.reinterpret request)).run h = .ok (root, h') ∧
          (Heap.tryBuild limits request h).result = .ok (root, h')) := by
  constructor
  · show match (limits.clampTo slotBytes).accept request with | .error _ => _ | .ok _ => _
    cases decision : (limits.clampTo slotBytes).accept request with
    | error reason => exact Limits.result_buildWith_of_error Tree.build decision
    | ok admitted =>
      obtain ⟨built, result⟩ := Tree.tryBuild_of_accept decision
      rw [(Limits.shape_of_accept decision).2.1] at built result
      exact ⟨_, built, result⟩
  · show match (limits.clampTo cellBytes).accept request with | .error _ => _ | .ok _ => _
    cases decision : (limits.clampTo cellBytes).accept request with
    | error reason => exact Limits.result_buildWith_of_error _ decision
    | ok admitted =>
      obtain ⟨h', ran, -, result⟩ := Heap.tryBuild_of_accept h decision
      rw [(Limits.shape_of_accept decision).2.1] at ran
      exact ⟨h.next, h', ran, result⟩

end ArrayLayout
