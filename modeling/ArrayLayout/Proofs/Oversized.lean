/-
Extents that stop a builder.

A builder comes to an extent of a shape if every array above it has elements; of these extents
the first that is too large for one array stops it.  What is too large depends on the builder.
A tree takes eight bytes for each cell of a leaf and twenty-four for each slot of an interior
array.  In memory all cells take eight, and a block ends at a whole cell.

* `Shape.Reaches` — extents that a builder comes to;
* `Shape.OversizedInTree`, `OversizedInMemory` — extents that are too large;
* `Shape.StopsAtFirst` — a builder stops for the first such extent and for nothing else;
* `Shape.check_eq_ok_of_reaches`, `Shape.check_eq_error_of_first` — the checks of a builder by
  the extents that it comes to;
* `Shape.eq_of_agree` — other extents have no say in anything;
* `Shape.build_stopsAtFirst` — both builders.
-/
import ArrayLayout.Proofs.Stopping

namespace ArrayLayout

namespace Shape

/-- A builder comes to this extent at `depth`: all arrays above have elements. -/
def Reaches (s : Shape) (depth : Nat) (extent : UInt64) : Prop :=
  s[depth]? = some extent ∧ ∀ j < depth, ∀ d, s[j]? = some d → 1 ≤ d.toNat

/-- Too large for an array of a tree.  The innermost array holds cells, any other one slots. -/
def OversizedInTree (s : Shape) (depth : Nat) (extent : UInt64) : Prop :=
  extent.toNat = 2 ^ 64 - 1 ∨
    (depth + 1 = s.length ∧ 2 ^ 63 - 1 < 8 * (extent.toNat + 1)) ∨
    (depth + 1 ≠ s.length ∧ 2 ^ 63 - 1 < 24 * extent.toNat)

/-- Too large for an array in memory. -/
def OversizedInMemory (extent : UInt64) : Prop := 2 ^ 63 - 8 < 8 * (extent.toNat + 1)

/-- What became of building a shape: it was stopped by the first oversized extent that a builder
comes to, if there is one, and by nothing else. -/
structure StopsAtFirst {α : Type} (s : Shape) (outcome : Except Fault α)
    (oversized : Nat → UInt64 → Prop) (message : UInt64 → String) : Prop where
  stops_iff : (∃ fault, outcome = .error fault) ↔
    ∃ depth extent, s.Reaches depth extent ∧ oversized depth extent
  first : ∀ depth extent, s.Reaches depth extent → oversized depth extent →
    (∀ j < depth, ∀ d, s.Reaches j d → ¬oversized j d) →
      ∃ fault, outcome = .error fault ∧ fault.message = message extent

variable {leaf interior : UInt64 → Except Fault Unit} {fault : Fault} {s s' : Shape}
  {depth : Nat} {extent : UInt64} {inner : Shape}

/-! ### Extents that are reached -/

theorem Reaches.before (reached : s.Reaches depth extent) {j : Nat} (lt : j < depth) {d : UInt64}
    (there : s[j]? = some d) : s.Reaches j d :=
  ⟨there, fun i earlier e here => reached.2 i (Nat.lt_trans earlier lt) e here⟩

theorem reaches_zero : Reaches (extent :: inner) 0 extent :=
  ⟨rfl, fun _ lt => absurd lt (Nat.not_lt_zero _)⟩

/-- Below an array with elements a builder goes on as if the inner extents were all. -/
theorem Reaches.below {d : UInt64} (reached : Reaches inner depth d) (elements : extent ≠ 0) :
    Reaches (extent :: inner) (depth + 1) d := by
  refine ⟨reached.1, fun j lt e there => ?_⟩
  cases j with
  | zero =>
    obtain rfl : extent = e := Option.some.inj there
    obtain ⟨count, some_elements⟩ := exists_toNat_eq_succ elements
    omega
  | succ j => exact reached.2 j (Nat.lt_of_succ_lt_succ lt) e there

theorem Reaches.ne_zero (reached : s.Reaches depth extent) {j : Nat} (lt : j < depth) {d : UInt64}
    (there : s[j]? = some d) : d ≠ 0 := by
  rintro rfl
  exact absurd (reached.2 j lt 0 there) (by decide)

/-! ### Checks -/

/-- The check that a builder makes at a depth. -/
def checkAt (leaf interior : UInt64 → Except Fault Unit) (s : Shape) (depth : Nat)
    (extent : UInt64) : Except Fault Unit :=
  if depth + 1 = s.length then leaf extent else interior extent

theorem checkAt_cons (extent next : UInt64) (inner : Shape) (depth : Nat) (d : UInt64) :
    checkAt leaf interior (extent :: next :: inner) (depth + 1) d =
      checkAt leaf interior (next :: inner) depth d := by
  simp [checkAt]

/-- A builder whose checks pass wherever it comes passes all its checks. -/
theorem check_eq_ok_of_reaches (nonempty : s ≠ [])
    (pass : ∀ depth extent, s.Reaches depth extent → s.checkAt leaf interior depth extent = .ok ()) :
    s.check leaf interior = .ok () := by
  induction s using check.induct with
  | case1 => exact absurd rfl nonempty
  | case2 extent => exact pass 0 extent reaches_zero
  | case3 extent next inner ih =>
    refine check_cons_cons_eq_ok_iff.2 ⟨pass 0 extent reaches_zero, fun elements => ?_⟩
    refine ih (by simp) fun depth d reached => ?_
    rw [← checkAt_cons extent]
    exact pass (depth + 1) d (reached.below elements)

/-- The first check to fail, of those at extents that a builder comes to, is the fault. -/
theorem check_eq_error_of_first (reached : s.Reaches depth extent)
    (own : s.checkAt leaf interior depth extent = .error fault)
    (before : ∀ j < depth, ∀ d, s.Reaches j d → s.checkAt leaf interior j d = .ok ()) :
    s.check leaf interior = .error fault := by
  obtain ⟨bound, value⟩ := List.getElem?_eq_some_iff.1 reached.1
  have passed (j : Nat) (lt : j < depth) (d : UInt64) (there : s[j]? = some d) :
      d ≠ 0 ∧ interior d = .ok () := by
    have inside : j + 1 ≠ s.length := by omega
    have passes := before j lt d (reached.before lt there)
    rw [checkAt, if_neg inside] at passes
    exact ⟨reached.ne_zero lt there, passes⟩
  rw [check_eq_drop bound passed, List.drop_eq_getElem_cons bound, value]
  unfold checkAt at own
  split at own
  · rename_i last
    rw [List.drop_eq_nil_of_le (by omega)]
    exact own
  · rename_i inside
    have more : depth + 1 < s.length := by omega
    rw [List.drop_eq_getElem_cons more, check_cons_cons, own]
    rfl

/-- A builder that follows its checks stops at the first extent that is oversized, where these
are the extents that its checks fail for. -/
theorem stopsAtFirst_of_check (leaf interior : UInt64 → Except Fault Unit) {α : Type}
    {outcome : Except Fault α} {oversized : Nat → UInt64 → Prop} {report : UInt64 → Fault}
    (nonempty : s ≠ [])
    (stops : ∀ fault, s.check leaf interior = .error fault → outcome = .error fault)
    (returns : s.check leaf interior = .ok () → ∃ a, outcome = .ok a)
    (fail : ∀ depth extent, s.Reaches depth extent → oversized depth extent →
      s.checkAt leaf interior depth extent = .error (report extent))
    (pass : ∀ depth extent, s.Reaches depth extent → ¬oversized depth extent →
      s.checkAt leaf interior depth extent = .ok ()) :
    s.StopsAtFirst outcome oversized fun extent => (report extent).message := by
  have first (depth : Nat) (extent : UInt64) (reached : s.Reaches depth extent)
      (large : oversized depth extent) (before : ∀ j < depth, ∀ d, s.Reaches j d → ¬oversized j d) :
      outcome = .error (report extent) := by
    refine stops _ (check_eq_error_of_first reached (fail depth extent reached large) ?_)
    intro j lt d earlier
    exact pass j d earlier (before j lt d earlier)
  refine ⟨⟨?_, ?_⟩, fun depth extent reached large before =>
    ⟨_, first depth extent reached large before, rfl⟩⟩
  · rintro ⟨fault, stopped⟩
    by_contra none_large
    obtain ⟨a, returned⟩ := returns (check_eq_ok_of_reaches nonempty fun depth extent reached =>
      pass depth extent reached fun large => none_large ⟨depth, extent, reached, large⟩)
    rw [stopped] at returned
    cases returned
  · intro some_large
    classical
    obtain ⟨extent, reached, large⟩ := Nat.find_spec some_large
    refine ⟨_, first _ extent reached large fun j lt d earlier small => ?_⟩
    exact Nat.find_min some_large lt ⟨d, earlier, small⟩

/-! ### Extents that are not reached -/

/-- Whatever takes a shape level by level, and looks below an array only if that has elements,
does not tell shapes apart that agree wherever a builder comes. -/
theorem eq_of_agree {β : Type} {F : Shape → β}
    (empty : ∀ next inner next' inner', F (0 :: next :: inner) = F (0 :: next' :: inner'))
    (level : ∀ extent next inner next' inner', F (next :: inner) = F (next' :: inner') →
      F (extent :: next :: inner) = F (extent :: next' :: inner'))
    (length : s'.length = s.length)
    (agree : ∀ depth extent, s.Reaches depth extent → s'[depth]? = some extent) : F s' = F s := by
  induction s using check.induct generalizing s' with
  | case1 => rw [List.length_eq_zero_iff.1 length]
  | case2 extent =>
    obtain ⟨extent', rfl⟩ := List.length_eq_one_iff.1 length
    obtain rfl : extent' = extent := Option.some.inj (agree 0 extent reaches_zero)
    rfl
  | case3 extent next inner ih =>
    obtain _ | ⟨extent', _ | ⟨next', inner'⟩⟩ := s'
    · simp at length
    · simp at length
    · obtain rfl : extent' = extent := Option.some.inj (agree 0 extent reaches_zero)
      by_cases elements : extent' = 0
      · rw [elements]
        exact empty next' inner' next inner
      · refine level extent' next' inner' next inner (ih (by simpa using length) ?_)
        intro depth d reached
        exact agree (depth + 1) d (reached.below elements)

/-! ### Both builders -/

/-- The fault of an oversized extent of a tree. -/
def treeFault (extent : UInt64) : Fault :=
  if extent.toNat = 2 ^ 64 - 1 then .unaddressable extent else .slotCapacity

theorem checkAt_tree_of_oversized (large : s.OversizedInTree depth extent) :
    s.checkAt Leaf.check Tree.checkSlots depth extent = .error (treeFault extent) := by
  have word : wordLimit - 1 = 2 ^ 64 - 1 := rfl
  unfold checkAt treeFault
  rw [Leaf.check_eq, Tree.checkSlots_eq, word]
  rcases large with largest | ⟨last, cells⟩ | ⟨inside, slots⟩
  · simp [largest]
  · have more : ¬(extent.toNat + 1) * cellBytes ≤ maxBlockBytes := by
      rw [cellBytes, maxBlockBytes]
      omega
    rw [if_pos last, if_neg more]
    split <;> rfl
  · have more : ¬extent.toNat * slotBytes ≤ maxBlockBytes := by
      rw [slotBytes, maxBlockBytes]
      omega
    rw [if_neg inside, if_neg more]
    split <;> rfl

theorem checkAt_tree_of_not_oversized (small : ¬s.OversizedInTree depth extent) :
    s.checkAt Leaf.check Tree.checkSlots depth extent = .ok () := by
  simp only [OversizedInTree, not_or, not_and] at small
  obtain ⟨word, cells, slots⟩ := small
  unfold checkAt
  split
  · rename_i last
    rw [Leaf.check_eq_ok_iff, cellBytes, maxBlockBytes]
    have fits := cells last
    omega
  · rename_i inside
    rw [Tree.checkSlots_eq_ok_iff, slotBytes, maxBlockBytes]
    have fits := slots inside
    omega

theorem stopsAtFirst_tree (nonempty : s ≠ []) :
    s.StopsAtFirst (Tree.build s) s.OversizedInTree fun extent => (treeFault extent).message := by
  refine stopsAtFirst_of_check Leaf.check Tree.checkSlots nonempty ?_ ?_ ?_ ?_
  · intro fault failed
    rw [Tree.build_eq, failed]
    rfl
  · intro passed
    exact ⟨Tree.zeros s, Tree.build_eq_ok_iff.2 ⟨passed, rfl⟩⟩
  · intro depth extent _ large
    exact checkAt_tree_of_oversized large
  · intro depth extent _ small
    exact checkAt_tree_of_not_oversized small

theorem checkBlock_eq_ok_of_not_oversized (small : ¬OversizedInMemory extent) :
    checkBlock extent = .ok () := by
  rw [OversizedInMemory] at small
  rw [checkBlock_eq_ok_iff, maxAddressableCells, maxBlockBytes, cellBytes]
  omega

theorem checkBlock_eq_error_of_oversized (large : OversizedInMemory extent) :
    checkBlock extent = .error (.unaddressable extent) := by
  refine (checkBlock_cases extent).resolve_left fun fits => ?_
  rw [checkBlock_eq_ok_iff, maxAddressableCells, maxBlockBytes, cellBytes] at fits
  rw [OversizedInMemory] at large
  omega

theorem stopsAtFirst_memory (nonempty : s ≠ []) (h : Heap) :
    s.StopsAtFirst ((Heap.build s).run h) (fun _ => OversizedInMemory) fun extent =>
      (Fault.unaddressable extent).message := by
  refine stopsAtFirst_of_check checkBlock checkBlock nonempty ?_ ?_ ?_ ?_
  · intro fault failed
    exact Heap.run_build_of_fault failed h
  · intro passed
    obtain ⟨h', ran, -⟩ := Heap.run_build_of_check passed h
    exact ⟨_, ran⟩
  · intro depth extent _ large
    rw [checkAt, ite_self]
    exact checkBlock_eq_error_of_oversized large
  · intro depth extent _ small
    rw [checkAt, ite_self]
    exact checkBlock_eq_ok_of_not_oversized small

/-- Each builder stops for the first extent that it comes to and that is too large for it, and
for nothing else.  Extents that it does not come to change nothing, neither whether it stops nor
what it builds. -/
theorem build_stopsAtFirst (nonempty : s ≠ []) (h : Heap) :
    s.StopsAtFirst (Tree.build s) s.OversizedInTree (fun extent =>
      if extent.toNat = 2 ^ 64 - 1 then
        "array extent " ++ extent.toNat.repr ++ " exceeds the address space"
      else "capacity overflow") ∧
    s.StopsAtFirst ((Heap.build s).run h) (fun _ => OversizedInMemory) (fun extent =>
      "array extent " ++ extent.toNat.repr ++ " exceeds the address space") ∧
    ∀ s' : Shape, s'.length = s.length →
      (∀ depth extent, s.Reaches depth extent → s'[depth]? = some extent) →
        Tree.build s' = Tree.build s ∧ (Heap.build s').run h = (Heap.build s).run h := by
  refine ⟨?_, stopsAtFirst_memory nonempty h, fun s' length agree => ⟨?_, ?_⟩⟩
  · have messages : (fun extent => (treeFault extent).message) = fun extent : UInt64 =>
        if extent.toNat = 2 ^ 64 - 1 then
          "array extent " ++ extent.toNat.repr ++ " exceeds the address space"
        else "capacity overflow" := by
      funext extent
      unfold treeFault
      split <;> rfl
    exact messages ▸ stopsAtFirst_tree nonempty
  · refine eq_of_agree (F := Tree.build) (fun _ _ _ _ => rfl) ?_ length agree
    intro extent next inner next' inner' same
    rw [Tree.build_cons_cons, Tree.build_cons_cons, same]
  · have same : Heap.build s' = Heap.build s := by
      refine eq_of_agree (F := Heap.build) (fun _ _ _ _ => rfl) ?_ length agree
      intro extent next inner next' inner' same
      rw [Heap.build_cons_cons, Heap.build_cons_cons, same]
    rw [same]

/-- An outermost extent that is too large for both builders, and an extent behind a zero. -/
theorem build_stops_two_builders :
    let s : Shape := [0x1000_0000_0000_0000, 0, 7]
    s ≠ [] ∧
      (∃ fault, Tree.build s = .error fault ∧ fault.message = "capacity overflow") ∧
      (∃ fault, (Heap.build s).run .empty = .error fault ∧
        fault.message = "array extent 1152921504606846976 exceeds the address space") ∧
      (Heap.build [0x1000_0000_0000_0000, 0, 9]).run .empty = (Heap.build s).run .empty := by
  intro s
  have nonempty : s ≠ [] := by simp [s]
  have reached : s.Reaches 0 0x1000_0000_0000_0000 := reaches_zero
  obtain ⟨inTree, inMemory, others⟩ := build_stopsAtFirst nonempty .empty
  refine ⟨nonempty, ?_, ?_, (others [0x1000_0000_0000_0000, 0, 9] rfl ?_).2⟩
  · exact inTree.first 0 _ reached (.inr (.inr ⟨by decide, by decide⟩)) (by simp)
  · have large : OversizedInMemory 0x1000_0000_0000_0000 := by
      rw [OversizedInMemory]
      decide
    exact inMemory.first 0 _ reached large (by simp)
  · intro depth extent reached
    match depth, reached with
    | 0, reached => exact reached.1
    | 1, reached => exact reached.1
    | 2, reached => exact absurd rfl (reached.ne_zero (j := 1) (by decide) (d := 0) rfl)

end Shape

end ArrayLayout
