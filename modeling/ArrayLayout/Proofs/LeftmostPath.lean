/-
The leftmost path of a tree.

The shape of a tree is read off its first elements only, down to an array that has none.  On a
tree that has a shape at all this gives the extents up to the first zero, since no array below a
zero is there to be looked at.  What is read off conforms again just if nothing was cut off: if
the path does not stop at an interior array without elements, but at a leaf.

* `Shape.throughZero` — the extents up to the first zero;
* `Tree.EndsInLeaf` — the leftmost path leads to a leaf;
* `Tree.not_endsInLeaf_iff` — otherwise it leads to an interior array without elements;
* `Tree.shape_of_conforms` — the shape of a tree that has one;
* `Tree.shape_eq_of_endsInLeaf`, `Tree.endsInLeaf_of_conforms_shape` — when nothing is cut off;
* `Tree.shape_exact` — which extents are read, and whether they are those of the tree.
-/
import ArrayLayout.Proofs.Conformance
import ArrayLayout.Proofs.Paths

namespace ArrayLayout

/-- The extents up to the first zero, and all of them if there is none. -/
def Shape.throughZero (s : Shape) : Shape := s.take (s.idxOf 0 + 1)

namespace Shape

variable {extent : UInt64}

theorem throughZero_singleton (extent : UInt64) : throughZero [extent] = [extent] := by
  rw [throughZero, List.take_of_length_le]
  simp

theorem throughZero_zero_cons (inner : Shape) : throughZero (0 :: inner) = [0] := by
  rw [throughZero, List.idxOf_cons_self]
  rfl

theorem throughZero_cons (elements : extent ≠ 0) (inner : Shape) :
    throughZero (extent :: inner) = extent :: throughZero inner := by
  rw [throughZero, List.idxOf_cons_ne inner elements, List.take_succ_cons, throughZero]

end Shape

namespace Tree

variable {n : UInt64} {ts : List Tree} {t : Tree} {s : Shape}

/-- The path that always takes the first element leads to a leaf. -/
def EndsInLeaf (t : Tree) : Prop :=
  ∃ depth, (t.leafAt? (List.replicate depth 0)).isSome = true

theorem endsInLeaf_leaf (l : Leaf) : (leaf l).EndsInLeaf :=
  ⟨0, by simp [leaf?]⟩

/-- An interior array ends as its first element does. -/
theorem endsInLeaf_interior_iff :
    (interior n ts).EndsInLeaf ↔ ∃ c, ts[0]? = some c ∧ c.EndsInLeaf := by
  constructor
  · rintro ⟨depth, found⟩
    cases depth with
    | zero => simp [leaf?] at found
    | succ depth =>
      rw [List.replicate_succ, leafAt?_interior_cons] at found
      obtain ⟨c, first⟩ := Option.isSome_iff_exists.1 (Option.isSome_of_isSome_bind found)
      rw [first, Option.bind_some] at found
      exact ⟨c, first, depth, found⟩
  · rintro ⟨c, first, depth, found⟩
    refine ⟨depth + 1, ?_⟩
    rwa [List.replicate_succ, leafAt?_interior_cons, first, Option.bind_some]

/-- A leftmost path that does not end in a leaf ends in an array without elements. -/
theorem not_endsInLeaf_iff :
    ¬t.EndsInLeaf ↔ ∃ depth n, t.at? (List.replicate depth 0) = some (interior n []) := by
  induction t with
  | leaf l =>
    refine iff_of_false (not_not_intro (endsInLeaf_leaf l)) ?_
    rintro ⟨depth, n, found⟩
    cases depth with
    | zero => simp at found
    | succ depth =>
      rw [List.replicate_succ, at?_leaf_cons] at found
      cases found
  | interior n ts ih =>
    rw [endsInLeaf_interior_iff]
    cases ts with
    | nil =>
      refine iff_of_true ?_ ⟨0, n, at?_nil _⟩
      rintro ⟨c, first, -⟩
      cases first
    | cons c rest =>
      have below : (∃ d, (c :: rest)[0]? = some d ∧ d.EndsInLeaf) ↔ c.EndsInLeaf := by simp
      rw [below, ih c List.mem_cons_self]
      constructor
      · rintro ⟨depth, m, found⟩
        exact ⟨depth + 1, m, found⟩
      · rintro ⟨depth, m, found⟩
        cases depth with
        | zero => simp at found
        | succ depth => exact ⟨depth, m, found⟩

/-! ### Shapes that are read off -/

/-- From a tree with a shape its extents are read up to the first zero. -/
theorem shape_of_conforms (sound : t.WellFormed) (fits : t.conforms s = true) :
    t.shape = s.throughZero := by
  refine conforms_rec (motive := fun t s => t.shape = s.throughZero) ?_ ?_ sound fits
  · intro l _
    rw [shape_leaf, Shape.throughZero_singleton]
  · intro n ts inner _ count _ ih
    rw [shape_interior]
    cases ts with
    | nil =>
      obtain rfl : n = 0 := UInt64.toNat_inj.1 count.symm
      exact (Shape.throughZero_zero_cons inner).symm
    | cons c rest =>
      have elements : n ≠ 0 := by
        rintro rfl
        simp at count
      rw [Shape.throughZero_cons elements, ← ih c List.mem_cons_self]
      rfl

/-- If the leftmost path ends in a leaf, all extents are read. -/
theorem shape_eq_of_endsInLeaf (fits : t.conforms s = true) (ends : t.EndsInLeaf) :
    t.shape = s := by
  induction t generalizing s with
  | leaf l =>
    rw [conforms_leaf_iff.1 fits, shape_leaf]
  | interior n ts ih =>
    obtain ⟨inner, rfl, -, parts⟩ := conforms_interior_iff.1 fits
    obtain ⟨c, first, below⟩ := endsInLeaf_interior_iff.1 ends
    have part : c ∈ ts := List.mem_of_getElem? first
    have read : (ts.map shape).headD [] = c.shape := by
      rw [List.headD_eq_head?_getD, List.head?_eq_getElem?, List.getElem?_map, first]
      rfl
    rw [shape_interior, read, ih c part (parts c part) below]

/-- A tree that has the shape that is read off it has a leaf at the end of its leftmost path. -/
theorem endsInLeaf_of_conforms_shape (fits : t.conforms t.shape = true) : t.EndsInLeaf := by
  induction t with
  | leaf l => exact endsInLeaf_leaf l
  | interior n ts ih =>
    obtain ⟨inner, same, more, parts⟩ := conforms_interior_iff.1 fits
    rw [shape_interior, List.cons.injEq] at same
    obtain ⟨-, rfl⟩ := same
    cases ts with
    | nil => exact absurd rfl more
    | cons c rest =>
      have ends : c.EndsInLeaf := ih c List.mem_cons_self (parts c List.mem_cons_self)
      exact endsInLeaf_interior_iff.2 ⟨c, rfl, ends⟩

/-- The shape that is read off a tree is that of the tree up to the first zero, if the tree has
one.  The tree conforms to it exactly if it conforms to a shape at all and its leftmost path ends
in a leaf.  The other end of that path is an interior array without elements. -/
theorem shape_exact (sound : t.WellFormed) :
    (∀ s, t.conforms s = true → t.shape = s.throughZero) ∧
    (t.conforms t.shape = true ↔ (∃ s, t.conforms s = true) ∧ t.EndsInLeaf) ∧
    (¬t.EndsInLeaf ↔ ∃ depth, t.at? (List.replicate depth 0) = some (interior 0 [])) := by
  refine ⟨?_, ?_, ?_⟩
  · intro s fits
    exact shape_of_conforms sound fits
  · constructor
    · intro fits
      exact ⟨⟨t.shape, fits⟩, endsInLeaf_of_conforms_shape fits⟩
    · rintro ⟨⟨s, fits⟩, ends⟩
      rwa [shape_eq_of_endsInLeaf fits ends]
  · rw [not_endsInLeaf_iff]
    constructor
    · rintro ⟨depth, n, found⟩
      have count := ((wellFormed_interior n []).1 (wellFormed_of_at? found sound)).1
      obtain rfl : n = 0 := UInt64.toNat_inj.1 count.symm
      exact ⟨depth, found⟩
    · rintro ⟨depth, found⟩
      exact ⟨depth, 0, found⟩

/-- Two empty rows, whose elements would be of length 5. -/
theorem shape_exact_empty_rows :
    let rows := interior 2 [.interior 0 [], .interior 0 []]
    rows.WellFormed ∧ rows.conforms [2, 0, 5] = true ∧
      rows.shape = Shape.throughZero [2, 0, 5] ∧ rows.shape = [2, 0] ∧
      ¬rows.EndsInLeaf ∧ rows.conforms rows.shape = false := by
  intro rows
  have sound : rows.WellFormed := by
    simp [rows]
  have fits : rows.conforms [2, 0, 5] = true := rfl
  obtain ⟨read, -, ends⟩ := shape_exact sound
  exact ⟨sound, fits, read [2, 0, 5] fits, rfl, ends.2 ⟨1, rfl⟩, rfl⟩

end Tree

end ArrayLayout
