/-
What the builder in memory builds, and when it stops.

The builder pushes the block of an array before those of its sub-arrays, so a nested
array comes to stand in order in the blocks behind the old ones.  While its elements are
entered, an interior array is half filled: references to the sub-arrays that are there
already, and zeros.

* `Heap.Built` — memory after a nested array was built behind the old blocks;
* `Heap.Entering` — memory while the elements of an array are entered;
* `Heap.Entering.enter` — entering one more element;
* `Heap.run_enterFrom` — entering all elements, each from its own source;
* `Heap.run_build_of_check`, `Heap.run_build_of_fault` — the builder makes its checks,
  and then the tree of zeros stands in memory.
-/
import ArrayLayout.Heap.Build
import ArrayLayout.Proofs.Holds

namespace ArrayLayout

open ArrayLayout.Tree

/-- The check that the block of an array fits in memory. -/
def checkBlock (extent : UInt64) : Except Fault Unit := (blockLayout extent).map fun _ => ()

theorem checkBlock_eq_ok_iff {extent : UInt64} :
    checkBlock extent = .ok () ↔ extent.toNat + 1 ≤ maxAddressableCells := by
  rw [← blockFits_iff, checkBlock, blockLayout]
  split <;> simp_all [Except.map]

namespace Heap

variable {h h' h₀ : Heap} {t : Tree} {extent : UInt64} {done : List Tree}

/-- The blocks from `h.next` on are those of a tree, and the old ones are as they were. -/
structure Built (h h' : Heap) (t : Tree) : Prop where
  next : h'.next.index = h.next.index + t.size
  frame : ∀ r : Ref, r.index < h.next.index → h'.block? r = h.block? r
  holds : h'.Holds t h.next.index

/-- An array of `extent` elements is at `h₀.next`.  The trees `done` are its first
elements, and the others are not entered yet. -/
structure Entering (h₀ h : Heap) (extent : UInt64) (done : List Tree) : Prop where
  next : h.next.index = h₀.next.index + 1 + (done.map size).sum
  frame : ∀ r : Ref, r.index < h₀.next.index → h.block? r = h₀.block? r
  block : h.block? h₀.next = some (.num extent :: ((subRefs done h₀.next.index).map Cell.ref ++
    List.replicate (extent.toNat - done.length) (.num 0)))
  subs : ∀ i t, done[i]? = some t → h.Holds t (h₀.next.index + 1 + before done i)

theorem ref_ne_of_lt {r s : Ref} (lt : r.index < s.index) : r ≠ s := by
  rintro rfl
  exact Nat.lt_irrefl _ lt

/-! ### One array -/

theorem next_push (h : Heap) (cells : List Cell) :
    (h.push cells).next.index = h.next.index + 1 := by
  simp [push, next]

theorem run_allocate (extent : UInt64) (h : Heap) :
    (allocate extent : HeapM Ref).run h =
      (checkBlock extent).map fun _ => (h.next, h.push (freshCells extent)) := by
  unfold allocate checkBlock
  cases blockLayout extent <;> rfl

theorem built_push_leaf (h : Heap) (extent : UInt64) :
    Built h (h.push (freshCells extent)) (.leaf (Leaf.zeros extent)) where
  next := next_push h _
  frame := fun _ old => block?_push_of_ne (ref_ne_of_lt old)
  holds := .leaf (by
    rw [show (⟨h.next.index⟩ : Ref) = h.next from rfl, block?_push_next]
    simp [freshCells, Leaf.zeros])

theorem entering_push (h : Heap) (extent : UInt64) :
    Entering h (h.push (freshCells extent)) extent [] where
  next := by simpa using next_push h (freshCells extent)
  frame := fun _ old => block?_push_of_ne (ref_ne_of_lt old)
  block := by
    rw [block?_push_next]
    rfl
  subs := fun i t child => by simp at child

/-! ### Entering elements -/

/-- The cell after the entered elements is the first zero. -/
theorem set_first_zero (refs : List Cell) (n count : Nat) (c : Cell) (len : refs.length = n) :
    (refs ++ List.replicate (count + 1) (Cell.num 0)).set n c =
      refs ++ [c] ++ List.replicate count (Cell.num 0) := by
  subst len
  rw [List.set_append_right _ _ (Nat.le_refl _), Nat.sub_self, List.replicate_succ,
    List.set_cons_zero, List.append_assoc, List.singleton_append]

/-- Once a sub-array is built, its reference goes into the next element. -/
theorem Entering.enter (filling : Entering h₀ h extent done) (room : done.length < extent.toNat)
    (built : Built h h' t) :
    Entering h₀ (h'.store h₀.next (lengthCell + 1 + done.length) (.ref h.next)) extent
      (done ++ [t]) := by
  have low : h₀.next.index < h.next.index := by
    have := filling.next
    omega
  have parent := (built.frame h₀.next low).trans filling.block
  -- every block other than the parent's is the same before and after the write
  have others (r : Ref) (other : r ≠ h₀.next) :
      (h'.store h₀.next (lengthCell + 1 + done.length) (.ref h.next)).block? r = h'.block? r :=
    block?_store_of_ne _ _ other
  refine ⟨?_, ?_, ?_, ?_⟩
  · rw [next_store, built.next, filling.next, List.map_append, List.sum_append, List.map_singleton,
      List.sum_singleton]
    omega
  · intro r old
    rw [others r (ref_ne_of_lt old), built.frame r (Nat.lt_trans old low), filling.frame r old]
  · obtain ⟨count, left⟩ : ∃ count, extent.toNat - done.length = count + 1 :=
      Nat.exists_eq_succ_of_ne_zero (by omega)
    have rest : extent.toNat - (done ++ [t]).length = count := by
      rw [List.length_append, List.length_singleton]
      omega
    have here : h.next = ⟨h₀.next.index + 1 + (done.map size).sum⟩ := by
      rw [← filling.next]
    rw [block?_store_self _ _ parent, lengthCell, Nat.zero_add, Nat.add_comm 1, List.set_cons_succ,
      left, set_first_zero _ _ _ _ (by simp), rest, subRefs_concat, List.map_append, ← here]
    rfl
  · intro i s child
    by_cases entered : i < done.length
    · rw [List.getElem?_append_left entered] at child
      rw [before_append [t] (Nat.le_of_lt entered)]
      -- the trees that were entered before are between the parent and the new blocks
      have held := filling.subs i s child
      refine held.frame fun k bound => ?_
      have inside := before_add_size_le child entered
      rw [before_length] at inside
      have stretch := filling.next
      have later : h₀.next.index < h₀.next.index + 1 + before done i + k := by omega
      have earlier : h₀.next.index + 1 + before done i + k < h.next.index := by omega
      rw [others _ (ref_ne_of_lt later).symm]
      exact built.frame _ earlier
    · have last : i = done.length := by
        have := (List.getElem?_eq_some_iff.1 child).1
        rw [List.length_append, List.length_singleton] at this
        omega
      subst last
      obtain rfl : t = s := by simpa using child
      rw [before_append [t] (Nat.le_refl _), before_length, ← filling.next]
      refine built.holds.frame fun k _ => others _ (ref_ne_of_lt ?_).symm
      exact Nat.lt_add_right k low

/-- With all elements entered, the array is a tree. -/
theorem Entering.built (filling : Entering h₀ h extent done) (full : done.length = extent.toNat) :
    Built h₀ h (.interior extent done) where
  next := by
    rw [filling.next, size_interior]
    omega
  frame := filling.frame
  holds := .interior (by simpa [full] using filling.block) filling.subs

/-- Each source builds its tree, whatever memory it finds; then so does the loop. -/
theorem run_enterFrom {source : Nat → HeapM Ref} {trees : Nat → Tree} {start count : Nat}
    (each : ∀ k < start + count, ∀ h : Heap,
      ∃ h', (source k).run h = .ok (h.next, h') ∧ Built h h' (trees k))
    (filling : Entering h₀ h extent done) (len : done.length = start)
    (room : start + count = extent.toNat) :
    ∃ h', (enterFrom source h₀.next start count).run h = .ok ((), h') ∧
      Entering h₀ h' extent (done ++ (List.range' start count).map trees) := by
  -- the invariant of the loop is `Entering`, with one more tree entered at each turn
  induction count generalizing start done h with
  | zero => exact ⟨h, rfl, by simpa using filling⟩
  | succ count ih =>
    obtain ⟨h₁, ran, built⟩ := each start (by omega) h
    have entered := filling.enter (by omega) built
    rw [len] at entered
    have later : ∀ k < start + 1 + count, ∀ h : Heap,
        ∃ h', (source k).run h = .ok (h.next, h') ∧ Built h h' (trees k) :=
      fun k bound => each k (by omega)
    obtain ⟨h₂, rest, final⟩ := ih later entered (by simp [len]) (by omega)
    refine ⟨h₂, ?_, by simpa [List.range'_succ] using final⟩
    simp only [enterFrom, StateT.run_bind, StateT.run_modify, ran]
    exact rest

/-- The first source to stop stops the loop. -/
theorem run_enterFrom_of_fault {source : Nat → HeapM Ref} {fault : Fault} {array : Ref}
    {start count : Nat} (stops : (source start).run h = .error fault) :
    (enterFrom source array start (count + 1)).run h = .error fault := by
  simp only [enterFrom, StateT.run_bind, stops]
  rfl

/-! ### The whole -/

theorem run_buildInterior (source : Nat → HeapM Ref) (extent : UInt64) (h : Heap) :
    (buildInterior extent source).run h =
      (checkBlock extent >>= fun _ =>
        ((enterFrom source h.next 0 extent.toNat).run (h.push (freshCells extent))).map
          fun filled => (h.next, filled.2)) := by
  simp only [buildInterior, StateT.run_bind, run_allocate]
  cases checkBlock extent with
  | error fault => rfl
  | ok own =>
    show (StateT.run _ _ >>= _) = Except.map _ _
    cases (enterFrom source h.next 0 extent.toNat).run (h.push (freshCells extent)) <;> rfl

/-- When all checks pass, the tree of zeros stands behind the old blocks. -/
theorem run_build_of_check {s : Shape} (passed : s.check checkBlock checkBlock = .ok ())
    (h : Heap) : ∃ h', (build s).run h = .ok (h.next, h') ∧ Built h h' (zeros s) := by
  induction s using Shape.check.induct generalizing h with
  | case1 => cases passed
  | case2 extent =>
    have own : checkBlock extent = .ok () := passed
    refine ⟨_, ?_, built_push_leaf h extent⟩
    rw [build_singleton, run_allocate, own]
    rfl
  | case3 extent next inner ih =>
    obtain ⟨own, below⟩ := Shape.check_cons_cons_eq_ok_iff.1 passed
    -- all sub-arrays are built alike, each in the memory that the one before it leaves
    have each (k : Nat) (bound : k < 0 + extent.toNat) (h : Heap) :
        ∃ h', (build (next :: inner)).run h = .ok (h.next, h') ∧
          Built h h' (zeros (next :: inner)) := by
      refine ih (below ?_) h
      rintro rfl
      simp at bound
    obtain ⟨h', filled, final⟩ := run_enterFrom each (entering_push h extent) rfl (by simp)
    refine ⟨h', ?_, ?_⟩
    · rw [build_cons_cons, run_buildInterior, own]
      show Except.map _ _ = _
      rw [filled]
      rfl
    · rw [zeros_cons_cons]
      simpa [List.map_const'] using final.built (by simp)

/-- The first check to fail is the fault. -/
theorem run_build_of_fault {s : Shape} {fault : Fault}
    (failed : s.check checkBlock checkBlock = .error fault) (h : Heap) :
    (build s).run h = .error fault := by
  induction s using Shape.check.induct generalizing h with
  | case1 =>
    cases failed
    rfl
  | case2 extent =>
    have own : checkBlock extent = .error fault := failed
    rw [build_singleton, run_allocate, own]
    rfl
  | case3 extent next inner ih =>
    rw [Shape.check_cons_cons] at failed
    rw [build_cons_cons, run_buildInterior]
    cases own : checkBlock extent with
    | error other =>
      rw [own] at failed
      cases failed
      rfl
    | ok passed =>
      rw [own] at failed
      have below : (if extent = 0 then .ok () else
        Shape.check checkBlock checkBlock (next :: inner)) = Except.error fault := failed
      split at below
      · cases below
      · rename_i elements
        -- the first sub-array already stops, in the memory that the parent leaves
        obtain ⟨count, first⟩ := exists_toNat_eq_succ elements
        show Except.map _ _ = _
        rw [first, run_enterFrom_of_fault (ih below _)]
        rfl

end Heap

end ArrayLayout
