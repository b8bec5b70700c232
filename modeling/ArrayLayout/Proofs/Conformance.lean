/-
Conformance, array by array.

The check of a tree against a shape goes down with a list that gets shorter, and stops at the
first array that is not as wanted.  What it decides can be said without any of that: a path with
as many indices as there are extents above leads to an array of the length that stands next in
the shape, and to a leaf exactly if no extent stands behind it.

* `Tree.forall_at?_leaf`, `Tree.forall_at?_interior` — what holds of all arrays of a tree, by
  its outermost array;
* `Tree.conforms_rec` — induction over trees with true lengths that have a shape;
* `Shape.Describes` — what a shape says of an array at some depth;
* `Tree.conforms_iff_describes` — a tree conforms to the shapes that describe all its arrays.
-/
import ArrayLayout.Proofs.WellFormed

namespace ArrayLayout

namespace Tree

variable {P : List Nat → Tree → Prop}

/-- A leaf is its only array. -/
theorem forall_at?_leaf {l : Leaf} :
    (∀ path x, (leaf l).at? path = some x → P path x) ↔ P [] (leaf l) := by
  constructor
  · intro all
    exact all [] (leaf l) (at?_nil _)
  · intro root path x found
    cases path with
    | nil =>
      rw [at?_nil, Option.some_inj] at found
      exact found ▸ root
    | cons i rest =>
      rw [at?_leaf_cons] at found
      cases found

/-- The arrays of an interior array are itself and those of its elements. -/
theorem forall_at?_interior {n : UInt64} {ts : List Tree} :
    (∀ path x, (interior n ts).at? path = some x → P path x) ↔
      P [] (interior n ts) ∧
        ∀ i c, ts[i]? = some c → ∀ path x, c.at? path = some x → P (i :: path) x := by
  constructor
  · intro all
    refine ⟨all [] _ (at?_nil _), ?_⟩
    intro i c child path x found
    exact all (i :: path) x (by rw [at?_interior_cons child, found])
  · rintro ⟨root, below⟩ path x found
    cases path with
    | nil =>
      rw [at?_nil, Option.some_inj] at found
      exact found ▸ root
    | cons i rest =>
      obtain ⟨c, child, inner⟩ := at?_cons_eq_some_iff.1 found
      exact below i c child rest x inner

/-- Induction over trees and shapes together.  Each element of an interior array has the shape
that is left, and there are as many as the length says. -/
theorem conforms_rec {motive : Tree → Shape → Prop} {t : Tree} {s : Shape}
    (leaf : ∀ l : Leaf, l.WellFormed → motive (leaf l) [l.length])
    (interior : ∀ (n : UInt64) (ts : List Tree) (inner : Shape), inner ≠ [] →
      ts.length = n.toNat → (∀ c ∈ ts, c.WellFormed ∧ c.conforms inner = true) →
      (∀ c ∈ ts, motive c inner) → motive (interior n ts) (n :: inner))
    (sound : t.WellFormed) (fits : t.conforms s = true) : motive t s := by
  induction t generalizing s with
  | leaf l =>
    obtain rfl := conforms_leaf_iff.1 fits
    exact leaf l sound
  | interior n ts ih =>
    obtain ⟨inner, rfl, more, parts⟩ := conforms_interior_iff.1 fits
    obtain ⟨count, sounds⟩ := (wellFormed_interior n ts).1 sound
    refine interior n ts inner more count ?_ ?_
    · intro c part
      exact ⟨sounds c part, parts c part⟩
    · intro c part
      exact ih c part (sounds c part) (parts c part)

end Tree

/-- What a shape says of an array: at this depth arrays have this length, and leaves are the
arrays of the last depth. -/
structure Shape.Describes (s : Shape) (depth : Nat) (x : Tree) : Prop where
  length : s.extent? depth = some x.length
  isLeaf : x.isLeaf = true ↔ depth + 1 = s.length

namespace Shape

variable {s : Shape} {x : Tree}

theorem not_describes_nil (depth : Nat) (x : Tree) : ¬Describes [] depth x := by
  intro described
  have length := described.length
  simp [extent?] at length

/-- Below the first extent a shape says what the other extents say one level higher. -/
theorem describes_cons_succ {extent : UInt64} {inner : Shape} {depth : Nat} :
    Describes (extent :: inner) (depth + 1) x ↔ Describes inner depth x := by
  constructor
  · rintro ⟨length, isLeaf⟩
    exact ⟨by simpa [extent?] using length, by simpa using isLeaf⟩
  · rintro ⟨length, isLeaf⟩
    exact ⟨by simpa [extent?] using length, by simpa using isLeaf⟩

theorem describes_leaf_iff {extent : UInt64} {inner : Shape} {l : Leaf} :
    Describes (extent :: inner) 0 (.leaf l) ↔ l.length = extent ∧ inner = [] := by
  constructor
  · rintro ⟨length, isLeaf⟩
    simp only [extent?, List.getElem?_cons_zero, Option.some_inj] at length
    have last := isLeaf.1 rfl
    simp only [List.length_cons, Nat.add_right_cancel_iff] at last
    exact ⟨length.symm, List.length_eq_zero_iff.1 last.symm⟩
  · rintro ⟨rfl, rfl⟩
    exact ⟨rfl, by simp [Tree.isLeaf]⟩

theorem describes_interior_iff {extent n : UInt64} {inner : Shape} {ts : List Tree} :
    Describes (extent :: inner) 0 (.interior n ts) ↔ n = extent ∧ inner ≠ [] := by
  constructor
  · rintro ⟨length, isLeaf⟩
    simp only [extent?, List.getElem?_cons_zero, Option.some_inj] at length
    refine ⟨length.symm, ?_⟩
    rintro rfl
    exact absurd (isLeaf.2 rfl) (by simp [Tree.isLeaf])
  · rintro ⟨rfl, more⟩
    refine ⟨rfl, ?_⟩
    simpa [Tree.isLeaf, eq_comm] using more

end Shape

namespace Tree

/-- A tree conforms to a shape exactly if the shape describes every array of it, wherever that
array is. -/
theorem conforms_iff_describes (t : Tree) (s : Shape) :
    t.conforms s = true ↔ ∀ path x, t.at? path = some x → s.Describes path.length x := by
  induction t generalizing s with
  | leaf l =>
    rw [forall_at?_leaf, List.length_nil]
    cases s with
    | nil => simp [Shape.not_describes_nil]
    | cons extent inner => simp [Shape.describes_leaf_iff]
  | interior n ts ih =>
    rw [forall_at?_interior, List.length_nil]
    cases s with
    | nil => simp [Shape.not_describes_nil]
    | cons extent inner =>
      have parts : (∀ c ∈ ts, c.conforms inner = true) ↔
          ∀ (i : Nat) (c : Tree), ts[i]? = some c → ∀ path x, c.at? path = some x →
            Shape.Describes (extent :: inner) (i :: path).length x := by
        constructor
        · intro fits i c child path x found
          have member : c ∈ ts := List.mem_of_getElem? child
          rw [List.length_cons, Shape.describes_cons_succ]
          exact (ih c member inner).1 (fits c member) path x found
        · intro described c member
          obtain ⟨i, child⟩ := List.mem_iff_getElem?.1 member
          refine (ih c member inner).2 ?_
          intro path x found
          exact Shape.describes_cons_succ.1 (described i c child path x found)
      rw [← parts, Shape.describes_interior_iff]
      simp

/-- Planes of one row each, the last of which is too short.  That one leaf decides. -/
theorem conforms_iff_describes_short_row :
    let short := leaf ⟨[1, 0]⟩
    let planes := interior 2 [.interior 1 [.leaf ⟨[2, 0, 0]⟩], .interior 1 [short]]
    planes.at? [1, 0] = some short ∧ ¬Shape.Describes [2, 1, 2] 2 short ∧
      planes.conforms [2, 1, 2] = false := by
  intro short planes
  have found : planes.at? [1, 0] = some short := rfl
  have differs : ¬Shape.Describes [2, 1, 2] 2 short := by
    intro described
    exact absurd described.length (by decide)
  refine ⟨found, differs, Bool.eq_false_iff.2 ?_⟩
  intro fits
  exact differs ((conforms_iff_describes planes [2, 1, 2]).1 fits [1, 0] short found)

end Tree

end ArrayLayout
