/-
Trees and blocks agree.

The checks of the two builders differ, since a slot of a tree is wider than a cell, but
what passes as a tree passes as blocks.  Both builders then make the same nested array:
reading the blocks back gives the tree.

* `checkBlock_of_check` — the checks of trees are the stronger ones;
* `Heap.Built.readTree` — a tree that was built in memory is read back, and
  `Heap.readTree_tryBuild` — so is that of an accepted request;
* `readTree_build` — what is built as a tree is built in memory, and read back from it.
-/
import ArrayLayout.Proofs.Admission

namespace ArrayLayout

theorem checkBlock_of_leafCheck (extent : UInt64) (passed : Leaf.check extent = .ok ()) :
    checkBlock extent = .ok () := by
  rw [Leaf.check_eq_ok_iff, cellBytes, maxBlockBytes] at passed
  rw [checkBlock_eq_ok_iff, maxAddressableCells, maxBlockBytes, cellBytes]
  omega

theorem checkBlock_of_checkSlots (extent : UInt64) (passed : Tree.checkSlots extent = .ok ()) :
    checkBlock extent = .ok () := by
  rw [Tree.checkSlots_eq_ok_iff, slotBytes, maxBlockBytes] at passed
  rw [checkBlock_eq_ok_iff, maxAddressableCells, maxBlockBytes, cellBytes]
  omega

/-- Where the builder of trees does not stop, the builder in memory does not either. -/
theorem checkBlock_of_check {s : Shape} (passed : s.check Leaf.check Tree.checkSlots = .ok ()) :
    s.check checkBlock checkBlock = .ok () :=
  Shape.check_of_imp checkBlock_of_leafCheck checkBlock_of_checkSlots passed

/-- A tree of one rank that was built in memory is read back. -/
theorem Heap.Built.readTree {h h' : Heap} {t : Tree} {rank : Nat} (built : Heap.Built h h' t)
    (sound : t.WellFormed) (even : t.HasRank rank) :
    h'.readTree rank h.next = .ok (some t) := by
  have pos : rank ≠ 0 := by
    rintro rfl
    exact Tree.not_hasRank_zero t even
  rw [Heap.readTree, if_neg pos]
  exact congrArg Except.ok (built.holds.tree? sound even)

/-- A new nested array is read back with the rank of its shape. -/
theorem Heap.Built.readTree_zeros {h h' : Heap} {s : Shape} (nonempty : s ≠ [])
    (built : Heap.Built h h' (Tree.zeros s)) :
    h'.readTree s.length h.next = .ok (some (Tree.zeros s)) :=
  built.readTree (Tree.wellFormed_zeros nonempty) (Tree.hasRank_zeros nonempty)

/-- An accepted request is built in memory, and read back with as many dimensions as it has. -/
theorem Heap.readTree_tryBuild {limits : Limits} {request : List Int64} {s : Shape} {f : Footprint}
    (accepted : (limits.clampTo cellBytes).accept request = .ok (s, f)) (h : Heap) :
    ∃ root h', (Heap.tryBuild limits request h).result = .ok (root, h') ∧
      h'.readTree request.length root = .ok (some (Tree.zeros s)) := by
  obtain ⟨h', -, built, result⟩ := Heap.tryBuild_of_accept h accepted
  obtain ⟨nonempty, rfl, -, -⟩ := Limits.shape_of_accept accepted
  have read := built.readTree_zeros nonempty
  rw [Shape.length_reinterpret] at read
  exact ⟨h.next, h', result, read⟩

/-- What the builder of trees returns for a shape, the builder in memory builds as well,
whatever is in memory before, and reading its array with the rank of the shape gives
that tree. -/
theorem readTree_build {s : Shape} {t : Tree} (built : Tree.build s = .ok t) (h : Heap) :
    ∃ root h', (Heap.build s).run h = .ok (root, h') ∧
      h'.readTree s.length root = .ok (some t) := by
  obtain ⟨passed, rfl⟩ := Tree.build_eq_ok_iff.1 built
  have nonempty := Shape.ne_nil_of_check passed
  obtain ⟨h', ran, inMemory⟩ := Heap.run_build_of_check (checkBlock_of_check passed) h
  exact ⟨h.next, h', ran, inMemory.readTree_zeros nonempty⟩

/-- Two leaves of three numbers, built behind a live block and a freed one. -/
theorem readTree_build_two_leaves :
    Tree.build [2, 3] =
        .ok (.interior 2 [.leaf ⟨[3, 0, 0, 0]⟩, .leaf ⟨[3, 0, 0, 0]⟩]) ∧
      ∃ root h', (Heap.build [2, 3]).run ⟨#[some [.num 7], none]⟩ = .ok (root, h') ∧
        h'.readTree 2 root =
          .ok (some (.interior 2 [.leaf ⟨[3, 0, 0, 0]⟩, .leaf ⟨[3, 0, 0, 0]⟩])) :=
  ⟨rfl, readTree_build rfl _⟩

end ArrayLayout
