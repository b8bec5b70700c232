/-
Numbers of a nested array, row by row.

The numbers of a tree are those of its leaves, one leaf after the other.  If the tree has a
shape, all elements of one array hold equally many numbers, and so the place of a number in this
sequence can be computed from its path: each index counts for as many numbers as an element at
its depth holds.

* `Shape.Inside`, `Shape.position` — the paths of a shape, and their places;
* `Shape.position_lt` — every place is below the number of elements;
* `Tree.numbers` — all numbers of a tree;
* `getElem?_flatMap_of_length` — entries of a list that is made of equally long parts;
* `Tree.isSome_get?_of_conforms` — the paths of the shape are those that lead to a number;
* `Tree.get?_of_conforms` — and they lead to the number at their place;
* `Tree.RowMajor`, `Tree.rowMajor_of_conforms` — both, with the number of leaves.
-/
import ArrayLayout.Proofs.Conformance
import ArrayLayout.Proofs.LeafPaths

namespace ArrayLayout

/-! ### Parts of one length -/

section

variable {α β : Type} {xs : List α} {f : α → List β} {m i k : Nat}

/-- In a list of equally long parts an entry is found by its part and its place in there. -/
theorem getElem?_flatMap_of_length (even : ∀ x ∈ xs, (f x).length = m) (inside : k < m) :
    (xs.flatMap f)[i * m + k]? = xs[i]?.bind fun x => (f x)[k]? := by
  induction xs generalizing i with
  | nil => simp
  | cons x xs ih =>
    have first : (f x).length = m := even x List.mem_cons_self
    rw [List.flatMap_cons]
    cases i with
    | zero =>
      rw [Nat.zero_mul, Nat.zero_add, List.getElem?_append_left (by omega)]
      rfl
    | succ i =>
      have skip : (i + 1) * m + k = (f x).length + (i * m + k) := by
        rw [Nat.succ_mul, first]
        omega
      rw [skip, List.getElem?_append_right (Nat.le_add_right _ _), Nat.add_sub_cancel_left,
        List.getElem?_cons_succ]
      exact ih fun y member => even y (List.mem_cons_of_mem x member)

theorem length_flatMap_of_length (even : ∀ x ∈ xs, (f x).length = m) :
    (xs.flatMap f).length = xs.length * m := by
  have alike : xs.map (fun x => (f x).length) = List.replicate xs.length m :=
    List.eq_replicate_iff.2 ⟨List.length_map _, List.forall_mem_map.2 even⟩
  rw [List.length_flatMap, alike, List.sum_replicate_nat]

end

/-! ### Paths of a shape -/

namespace Shape

/-- The path has an index for each extent, and each index is below its extent. -/
def Inside (s : Shape) (path : List Nat) : Prop :=
  path.length = s.length ∧
    ∀ (i : Nat) (index : i < path.length) (extent : i < s.length), path[i] < s[i].toNat

/-- How many numbers come before the one at a path: each index counts for the product of the
extents behind it. -/
def position (s : Shape) (path : List Nat) : Nat :=
  ∑ i ∈ Finset.range path.length, path.getD i 0 * ((s.drop (i + 1)).map UInt64.toNat).prod

variable {extent : UInt64} {inner : Shape} {i : Nat} {rest : List Nat}

theorem inside_iff_forall₂ {s : Shape} {path : List Nat} :
    s.Inside path ↔ List.Forall₂ (fun index extent => index < extent.toNat) path s := by
  rw [Inside, List.forall₂_iff_get]
  exact Iff.rfl

theorem inside_nil_iff {path : List Nat} : Inside [] path ↔ path = [] := by
  rw [inside_iff_forall₂, List.forall₂_nil_right_iff]

theorem not_inside_cons_nil : ¬Inside (extent :: inner) [] := by
  simp [inside_iff_forall₂]

theorem inside_cons_cons :
    Inside (extent :: inner) (i :: rest) ↔ i < extent.toNat ∧ Inside inner rest := by
  rw [inside_iff_forall₂, inside_iff_forall₂, List.forall₂_cons]

@[simp] theorem position_nil (s : Shape) : s.position [] = 0 := rfl

theorem position_cons : position (extent :: inner) (i :: rest) =
    i * (inner.map UInt64.toNat).prod + position inner rest := by
  rw [position, List.length_cons, Finset.sum_range_succ', Nat.add_comm]
  rfl

/-- The places of a shape are as many as its extents multiply to. -/
theorem position_lt {s : Shape} {path : List Nat} (inside : s.Inside path) :
    s.position path < (s.map UInt64.toNat).prod := by
  induction s generalizing path with
  | nil =>
    obtain rfl := inside_nil_iff.1 inside
    exact Nat.one_pos
  | cons extent inner ih =>
    cases path with
    | nil => exact absurd inside not_inside_cons_nil
    | cons i rest =>
      obtain ⟨index, below⟩ := inside_cons_cons.1 inside
      have part := ih below
      rw [position_cons, List.map_cons, List.prod_cons]
      calc i * (inner.map UInt64.toNat).prod + position inner rest
          < i * (inner.map UInt64.toNat).prod + (inner.map UInt64.toNat).prod := by omega
        _ = (i + 1) * (inner.map UInt64.toNat).prod := by rw [Nat.succ_mul]
        _ ≤ extent.toNat * (inner.map UInt64.toNat).prod := Nat.mul_le_mul_right _ index

end Shape

namespace Tree

variable {t : Tree} {s : Shape} {path : List Nat}

/-! ### Numbers and leaves of a tree -/

/-- All numbers of a tree, one leaf after the other. -/
def numbers (t : Tree) : List UInt64 := t.leaves.flatMap Leaf.payload

@[simp] theorem numbers_leaf (l : Leaf) : (leaf l).numbers = l.payload := by
  rw [numbers, leaves_leaf, List.flatMap_singleton]

@[simp] theorem numbers_interior (n : UInt64) (ts : List Tree) :
    (interior n ts).numbers = ts.flatMap numbers := by
  rw [numbers, leaves_interior, List.flatMap_assoc]
  rfl

/-- A tree of a shape has as many numbers as the extents multiply to. -/
theorem length_numbers_of_conforms (sound : t.WellFormed) (fits : t.conforms s = true) :
    t.numbers.length = (s.map UInt64.toNat).prod := by
  refine conforms_rec (motive := fun t s => t.numbers.length = (s.map UInt64.toNat).prod)
    ?_ ?_ sound fits
  · intro l sound
    rw [numbers_leaf, sound.length_payload]
    simp
  · intro n ts inner _ count _ ih
    rw [numbers_interior, length_flatMap_of_length ih, count, List.map_cons, List.prod_cons]

/-- A tree of a shape has as many leaves as all extents but the last multiply to. -/
theorem length_leaves_of_conforms (sound : t.WellFormed) (fits : t.conforms s = true) :
    t.leaves.length = (s.dropLast.map UInt64.toNat).prod := by
  refine conforms_rec (motive := fun t s => t.leaves.length = (s.dropLast.map UInt64.toNat).prod)
    ?_ ?_ sound fits
  · intro l _
    rfl
  · intro n ts inner more count _ ih
    rw [leaves_interior, length_flatMap_of_length ih, count, List.dropLast_cons_of_ne_nil more,
      List.map_cons, List.prod_cons]

/-! ### Reading -/

/-- In a leaf one index leads to a number. -/
theorem get?_leaf_cons (l : Leaf) (i : Nat) (rest : List Nat) :
    (leaf l).get? (i :: rest) = if rest = [] then l.get? i else none := by
  rcases List.eq_nil_or_concat' rest with rfl | ⟨outer, last, rfl⟩
  · exact get?_concat (leaf l) [] i
  · rw [← List.cons_append, get?_concat, leafAt?_leaf_cons, Option.bind_none]
    simp

/-- In an interior array the first index leads to an element. -/
theorem get?_interior_cons (n : UInt64) (ts : List Tree) (i : Nat) (rest : List Nat) :
    (interior n ts).get? (i :: rest) = ts[i]?.bind fun c => c.get? rest := by
  rcases List.eq_nil_or_concat' rest with rfl | ⟨outer, last, rfl⟩
  · -- one index leads to an array, and no index to nothing at all
    have above : (interior n ts).get? [i] = none := get?_concat (interior n ts) [] i
    rw [above]
    cases ts[i]? with
    | none => rfl
    | some c => rfl
  · rw [← List.cons_append, get?_concat, leafAt?_interior_cons, Option.bind_assoc]
    simp only [get?_concat]

/-- The paths to numbers are the paths of the shape. -/
theorem isSome_get?_of_conforms (sound : t.WellFormed) (fits : t.conforms s = true) :
    (t.get? path).isSome = true ↔ s.Inside path := by
  refine conforms_rec (motive := fun t s => ∀ path, (t.get? path).isSome = true ↔ s.Inside path)
    ?_ ?_ sound fits path
  · intro l sound path
    cases path with
    | nil => simp [Shape.not_inside_cons_nil]
    | cons i rest =>
      rw [get?_leaf_cons, Shape.inside_cons_cons, Shape.inside_nil_iff, ← sound.length_payload]
      by_cases last : rest = []
      · simp [last, Leaf.get?]
      · simp [last]
  · intro n ts inner _ count _ ih path
    cases path with
    | nil => simp [Shape.not_inside_cons_nil]
    | cons i rest =>
      rw [get?_interior_cons, Shape.inside_cons_cons, ← count]
      cases child : ts[i]? with
      | none =>
        have beyond := List.getElem?_eq_none_iff.1 child
        simp only [Option.bind_none, Option.isSome_none, Bool.false_eq_true, false_iff]
        omega
      | some c =>
        obtain ⟨bound, -⟩ := List.getElem?_eq_some_iff.1 child
        rw [Option.bind_some, ih c (List.mem_of_getElem? child) rest]
        exact (and_iff_right bound).symm

/-- The number at a path of the shape is the one at the place of that path. -/
theorem get?_of_conforms (sound : t.WellFormed) (fits : t.conforms s = true)
    (inside : s.Inside path) : t.get? path = t.numbers[s.position path]? := by
  refine conforms_rec
    (motive := fun t s => ∀ path, s.Inside path → t.get? path = t.numbers[s.position path]?)
    ?_ ?_ sound fits path inside
  · intro l _ path inside
    cases path with
    | nil => exact absurd inside Shape.not_inside_cons_nil
    | cons i rest =>
      obtain rfl := Shape.inside_nil_iff.1 (Shape.inside_cons_cons.1 inside).2
      rw [get?_leaf_cons, if_pos rfl, numbers_leaf, Shape.position_cons]
      simp [Leaf.get?]
  · intro n ts inner _ _ parts ih path inside
    cases path with
    | nil => exact absurd inside Shape.not_inside_cons_nil
    | cons i rest =>
      have below : inner.Inside rest := (Shape.inside_cons_cons.1 inside).2
      have even : ∀ c ∈ ts, c.numbers.length = (inner.map UInt64.toNat).prod := by
        intro c part
        exact length_numbers_of_conforms (parts c part).1 (parts c part).2
      rw [get?_interior_cons, numbers_interior, Shape.position_cons,
        getElem?_flatMap_of_length even (Shape.position_lt below)]
      cases child : ts[i]? with
      | none => rfl
      | some c => exact ih c (List.mem_of_getElem? child) rest below

/-! ### Row by row -/

/-- Numbers and leaves of `t` are laid out row by row, as the shape says. -/
structure RowMajor (t : Tree) (s : Shape) : Prop where
  isSome_get? : ∀ path, (t.get? path).isSome = true ↔ s.Inside path
  get?_eq : ∀ path, s.Inside path → t.get? path = t.numbers[s.position path]?
  length_leaves : t.leaves.length = (s.dropLast.map UInt64.toNat).prod
  /-- The listed leaves are found at the listed paths, which are all different. -/
  leaves_eq : t.leafPaths.map t.leafAt? = t.leaves.map some
  nodup : t.leafPaths.Nodup
  /-- No leaf is left out. -/
  mem_leafPaths : ∀ path, path ∈ t.leafPaths ↔ (t.leafAt? path).isSome = true

/-- Every tree with true lengths is laid out row by row for each shape that it has. -/
theorem rowMajor_of_conforms (sound : t.WellFormed) (fits : t.conforms s = true) :
    RowMajor t s where
  isSome_get? _ := isSome_get?_of_conforms sound fits
  get?_eq _ := get?_of_conforms sound fits
  length_leaves := length_leaves_of_conforms sound fits
  leaves_eq := map_leafAt?_leafPaths t
  nodup := nodup_leafPaths t
  mem_leafPaths _ := mem_leafPaths_iff

/-- Two planes of two rows, with the sixth of their eight numbers. -/
theorem rowMajor_two_planes :
    let planes := interior 2 [
      .interior 2 [.leaf ⟨[2, 10, 11]⟩, .leaf ⟨[2, 12, 13]⟩],
      .interior 2 [.leaf ⟨[2, 14, 15]⟩, .leaf ⟨[2, 16, 17]⟩]]
    planes.WellFormed ∧ planes.conforms [2, 2, 2] = true ∧
      RowMajor planes [2, 2, 2] ∧ planes.get? [1, 0, 1] = planes.numbers[5]? ∧
      planes.get? [1, 0, 1] = some 15 := by
  intro planes
  have sound : planes.WellFormed := by
    simp [planes, Leaf.WellFormed]
  have fits : planes.conforms [2, 2, 2] = true := rfl
  have rows := rowMajor_of_conforms sound fits
  have inside : Shape.Inside [2, 2, 2] [1, 0, 1] := by
    simp [Shape.inside_iff_forall₂]
  exact ⟨sound, fits, rows, rows.get?_eq [1, 0, 1] inside, rfl⟩

end Tree

end ArrayLayout
