/-
Leaves and the paths to them.

Two leaves of a tree may hold the same cells, and then a listing of leaves does not tell them
apart.  Their paths do.  Here the listing is made once more with paths in the place of leaves,
and it turns out that each leaf of the tree has its one entry.

* `Tree.leafPaths` — the paths to the leaves, from left to right;
* `Tree.mem_leafPaths_iff` — these are all paths that lead to leaves;
* `Tree.pairwise_leafPaths` — they ascend, so none comes twice;
* `Tree.map_leafAt?_leafPaths` — the leaves at these paths are those of the listing, in order.
-/
import ArrayLayout.Proofs.Paths

namespace ArrayLayout

namespace Tree

/-- The paths to the leaves, from left to right. -/
def leafPaths : Tree → List (List Nat) :=
  fold (fun _ => [[]]) (fun _ below => below.zipIdx.flatMap fun x => x.1.map (List.cons x.2))

@[simp] theorem leafPaths_leaf (l : Leaf) : (leaf l).leafPaths = [[]] := rfl

@[simp] theorem leafPaths_interior (n : UInt64) (ts : List Tree) :
    (interior n ts).leafPaths =
      ts.zipIdx.flatMap fun x => x.1.leafPaths.map (List.cons x.2) := by
  rw [leafPaths, fold_interior, List.zipIdx_map, List.flatMap_map]
  rfl

/-- The paths of an interior array start with the index of an element and go on there. -/
theorem mem_leafPaths_interior {n : UInt64} {ts : List Tree} {path : List Nat} :
    path ∈ (interior n ts).leafPaths ↔
      ∃ i c rest, ts[i]? = some c ∧ rest ∈ c.leafPaths ∧ path = i :: rest := by
  rw [leafPaths_interior, List.mem_flatMap]
  constructor
  · rintro ⟨⟨c, i⟩, entry, member⟩
    obtain ⟨rest, below, rfl⟩ := List.mem_map.1 member
    exact ⟨i, c, rest, List.mem_zipIdx_iff_getElem?.1 entry, below, rfl⟩
  · rintro ⟨i, c, rest, child, below, rfl⟩
    exact ⟨(c, i), List.mem_zipIdx_iff_getElem?.2 child, List.mem_map.2 ⟨rest, below, rfl⟩⟩

/-- The paths that are listed are those that lead to a leaf. -/
theorem mem_leafPaths_iff {t : Tree} {path : List Nat} :
    path ∈ t.leafPaths ↔ (t.leafAt? path).isSome = true := by
  induction t generalizing path with
  | leaf l =>
    rw [leafPaths_leaf, List.mem_singleton]
    cases path with
    | nil => simp [leaf?]
    | cons i rest => simp [leafAt?_leaf_cons]
  | interior n ts ih =>
    rw [mem_leafPaths_interior]
    cases path with
    | nil => simp [leaf?]
    | cons i rest =>
      rw [leafAt?_interior_cons]
      constructor
      · rintro ⟨i, c, rest, child, below, same⟩
        obtain ⟨rfl, rfl⟩ := List.cons.inj same
        rw [child, Option.bind_some]
        exact (ih c (List.mem_of_getElem? child)).1 below
      · intro found
        obtain ⟨c, child⟩ := Option.isSome_iff_exists.1 (Option.isSome_of_isSome_bind found)
        rw [child, Option.bind_some] at found
        exact ⟨i, c, rest, child, (ih c (List.mem_of_getElem? child)).2 found, rfl⟩

/-- From left to right the paths ascend, one level after the other. -/
theorem pairwise_leafPaths (t : Tree) : t.leafPaths.Pairwise (· < ·) := by
  induction t with
  | leaf l =>
    rw [leafPaths_leaf]
    exact List.pairwise_singleton _ _
  | interior n ts ih =>
    rw [leafPaths_interior, List.pairwise_flatMap]
    constructor
    · rintro ⟨c, i⟩ entry
      have part := ih c (List.mem_of_getElem? (List.mem_zipIdx_iff_getElem?.1 entry))
      refine List.pairwise_map.2 (part.imp ?_)
      intro p q lt
      exact List.cons_lt_cons_iff.2 (.inr ⟨rfl, lt⟩)
    · have indices : (ts.zipIdx.map Prod.snd).Pairwise (· < ·) := by
        rw [List.zipIdx_map_snd]
        exact List.pairwise_lt_range'
      refine (List.pairwise_map.1 indices).imp ?_
      intro x y lt p left q right
      obtain ⟨p, -, rfl⟩ := List.mem_map.1 left
      obtain ⟨q, -, rfl⟩ := List.mem_map.1 right
      exact List.cons_lt_cons_iff.2 (.inl lt)

theorem nodup_leafPaths (t : Tree) : t.leafPaths.Nodup := by
  refine t.pairwise_leafPaths.imp ?_
  rintro p _ lt rfl
  exact List.lt_irrefl p lt

/-- The leaves at these paths are the leaves of the tree, in the same order. -/
theorem map_leafAt?_leafPaths (t : Tree) : t.leafPaths.map t.leafAt? = t.leaves.map some := by
  induction t with
  | leaf l => simp [leaf?]
  | interior n ts ih =>
    have each : ∀ x ∈ ts.zipIdx, (x.1.leafPaths.map (List.cons x.2)).map (interior n ts).leafAt? =
        x.1.leaves.map some := by
      rintro ⟨c, i⟩ entry
      have child := List.mem_zipIdx_iff_getElem?.1 entry
      rw [← ih c (List.mem_of_getElem? child), List.map_map]
      refine List.map_congr_left ?_
      intro rest _
      show (interior n ts).leafAt? (i :: rest) = c.leafAt? rest
      rw [leafAt?_interior_cons, child, Option.bind_some]
    calc (interior n ts).leafPaths.map (interior n ts).leafAt?
        = ts.zipIdx.flatMap fun x => x.1.leaves.map some := by
          rw [leafPaths_interior, List.map_flatMap]
          exact List.flatMap_congr each
      _ = (ts.zipIdx.map Prod.fst).flatMap fun c => c.leaves.map some := by
          rw [List.flatMap_map]
      _ = (interior n ts).leaves.map some := by
          rw [List.zipIdx_map_fst, leaves_interior, List.map_flatMap]

end Tree

end ArrayLayout
