/-
The assertion about freshly built arrays.

A shape and zeros for numbers fix a tree completely, as long as its lengths are true: a leaf is
its length and that many zeros, and all elements of an interior array are equal to each other.
So the assertion holds of one tree only, the one that is built for the shape.  Extents below a
zero are not looked at by either side.

* `Leaf.eq_zeros_of_isZero` — a leaf without a number other than zero;
* `Tree.isZero_of_mem_leaves_zeros` — new trees hold only zeros;
* `Tree.eq_zeros_of_conforms` — and no other tree of their shape does;
* `Tree.assertZeroedShape_eq_ok_iff` — the assertion passes for the new tree alone.
-/
import ArrayLayout.Proofs.Conformance
import ArrayLayout.Proofs.Prediction
import ArrayLayout.Tree.Check

namespace ArrayLayout

namespace Leaf

theorem isZero_iff {l : Leaf} : l.isZero = true ↔ ∀ number ∈ l.payload, number = 0 := by
  rw [isZero, List.all_eq_true]
  simp only [beq_iff_eq]

theorem isZero_zeros (extent : UInt64) : (zeros extent).isZero = true := by
  rw [isZero_iff, payload_zeros]
  intro number member
  exact List.eq_of_mem_replicate member

/-- A leaf of zeros is its length and nothing else. -/
theorem eq_zeros_of_isZero {l : Leaf} (sound : l.WellFormed) (zero : l.isZero = true) :
    l = zeros l.length := by
  have payload : l.payload = List.replicate l.length.toNat 0 :=
    List.eq_replicate_iff.2 ⟨sound.length_payload, isZero_iff.1 zero⟩
  have cells : l.cells = (zeros l.length).cells := by
    rw [sound.cells_eq, payload]
    rfl
  exact congrArg Leaf.mk cells

end Leaf

namespace Tree

theorem isZero_of_mem_leaves_zeros {s : Shape} (nonempty : s ≠ []) :
    ∀ l ∈ (zeros s).leaves, l.isZero = true := by
  induction s using Shape.check.induct with
  | case1 => exact absurd rfl nonempty
  | case2 extent =>
    intro l member
    rw [zeros_singleton, leaves_leaf, List.mem_singleton] at member
    rw [member]
    exact Leaf.isZero_zeros extent
  | case3 extent next inner ih =>
    intro l member
    rw [zeros_cons_cons, leaves_interior, List.mem_flatMap] at member
    obtain ⟨t, part, below⟩ := member
    rw [List.eq_of_mem_replicate part] at below
    exact ih (by simp) l below

/-- A tree of a shape that holds only zeros is the new tree of that shape. -/
theorem eq_zeros_of_conforms {t : Tree} {s : Shape} (sound : t.WellFormed)
    (fits : t.conforms s = true) (zero : ∀ l ∈ t.leaves, l.isZero = true) : t = zeros s := by
  refine conforms_rec (motive := fun t s => (∀ l ∈ t.leaves, l.isZero = true) → t = zeros s)
    ?_ ?_ sound fits zero
  · intro l sound zero
    have same : l = Leaf.zeros l.length := Leaf.eq_zeros_of_isZero sound (zero l (by simp))
    rw [zeros_singleton, ← same]
  · intro n ts inner more count _ ih zero
    obtain ⟨next, inner, rfl⟩ := List.exists_cons_of_ne_nil more
    -- every element is the same new tree, and there are as many as the length says
    have alike : ∀ c ∈ ts, c = zeros (next :: inner) := by
      intro c part
      refine ih c part ?_
      intro l member
      have listed : l ∈ (interior n ts).leaves := by
        rw [leaves_interior]
        exact List.mem_flatMap.2 ⟨c, part, member⟩
      exact zero l listed
    rw [zeros_cons_cons, List.eq_replicate_iff.2 ⟨count, alike⟩]

theorem assertZeroedShape_passes_iff {t : Tree} {s : Shape} :
    t.assertZeroedShape s = .ok () ↔ t.conforms s = true ∧ ∀ l ∈ t.leaves, l.isZero = true := by
  rw [assertZeroedShape]
  split
  · rename_i fits
    rw [assertZero_eq_ok_iff]
    exact (and_iff_right fits).symm
  · rename_i differs
    simp [differs]

/-- The assertion on shape and numbers passes for the tree that is built for the shape, and for
no other tree with true lengths. -/
theorem assertZeroedShape_eq_ok_iff {t built : Tree} {s : Shape} (sound : t.WellFormed)
    (builds : build s = .ok built) : t.assertZeroedShape s = .ok () ↔ (t == built) = true := by
  obtain ⟨passed, rfl⟩ := build_eq_ok_iff.1 builds
  have nonempty := Shape.ne_nil_of_check passed
  rw [assertZeroedShape_passes_iff, beq_iff_eq]
  constructor
  · rintro ⟨fits, zero⟩
    exact eq_zeros_of_conforms sound fits zero
  · rintro rfl
    exact ⟨conforms_zeros nonempty, isZero_of_mem_leaves_zeros nonempty⟩

/-- Two empty rows, whose elements could be of any size. -/
theorem assertZeroedShape_empty_rows :
    let rows := interior 2 [.interior 0 [], .interior 0 []]
    let s : Shape := [2, 0, 0xFFFF_FFFF_FFFF_FFFF]
    rows.WellFormed ∧ build s = .ok rows ∧ rows.assertZeroedShape s = .ok () := by
  intro rows s
  have sound : rows.WellFormed := by
    simp [rows]
  have builds : build s = .ok rows := rfl
  exact ⟨sound, builds, (assertZeroedShape_eq_ok_iff sound builds).2 (by simp)⟩

end Tree

end ArrayLayout
