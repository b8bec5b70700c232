/-
Trees whose lengths are true, and trees of one rank.

A length cell is only a number, so nothing in `Tree` itself says that it counts the
elements that follow, or that all leaves are equally deep.

* `Tree.WellFormed` — every array has as many elements as its length says;
* `Tree.HasRank` — all leaves are on one level, and above it there are none;
* `Tree.wellFormed_zeros`, `Tree.hasRank_zeros` — new trees have both properties;
* `Tree.eq_zeros_of_at?` — the arrays of a new tree are new trees of the inner shapes;
* `Tree.check_of_at?` — and the builders checked each of them.
-/
import ArrayLayout.Proofs.Zeros
import ArrayLayout.Tree.Path

namespace ArrayLayout

namespace Leaf

/-- The length cell is there and counts the numbers after it. -/
def WellFormed (l : Leaf) : Prop := l.cells.length = l.length.toNat + 1

variable {l : Leaf}

theorem WellFormed.cells_eq (sound : l.WellFormed) : l.cells = l.length :: l.payload := by
  obtain ⟨cells⟩ := l
  cases cells with
  | nil => simp [WellFormed] at sound
  | cons n ns => rfl

theorem WellFormed.length_payload (sound : l.WellFormed) : l.payload.length = l.length.toNat := by
  have count : l.cells.length = l.length.toNat + 1 := sound
  rw [sound.cells_eq, List.length_cons] at count
  omega

theorem wellFormed_zeros (extent : UInt64) : (zeros extent).WellFormed := by
  simp [WellFormed, zeros, Leaf.length]

end Leaf

namespace Tree

/-- Every array has as many elements as its length says. -/
def WellFormed : Tree → Prop :=
  fold Leaf.WellFormed (fun n below => below.length = n.toNat ∧ ∀ part ∈ below, part)

@[simp] theorem wellFormed_leaf (l : Leaf) : (leaf l).WellFormed ↔ l.WellFormed := Iff.rfl

@[simp] theorem wellFormed_interior (n : UInt64) (ts : List Tree) :
    (interior n ts).WellFormed ↔ ts.length = n.toNat ∧ ∀ t ∈ ts, t.WellFormed := by
  show fold Leaf.WellFormed _ (interior n ts) ↔ _
  rw [fold_interior, List.length_map, List.forall_mem_map]
  exact Iff.rfl

/-- All leaves are on level `rank`, counted from one, and all other arrays above it. -/
def HasRank : Tree → (rank : Nat) → Prop
  | _, 0 => False
  | leaf _, rank + 1 => rank = 0
  | interior _ ts, rank + 1 => 0 < rank ∧ ∀ t ∈ ts, t.HasRank rank

@[simp] theorem not_hasRank_zero (t : Tree) : ¬t.HasRank 0 := by
  cases t <;> exact id

@[simp] theorem hasRank_leaf (l : Leaf) (rank : Nat) : (leaf l).HasRank rank ↔ rank = 1 := by
  cases rank with
  | zero => simp
  | succ rank => simp [HasRank]

theorem hasRank_interior (n : UInt64) (ts : List Tree) (rank : Nat) :
    (interior n ts).HasRank (rank + 1) ↔ 0 < rank ∧ ∀ t ∈ ts, t.HasRank rank := Iff.rfl

/-- Above the leaves there are at least two dimensions. -/
theorem exists_rank_of_interior {n : UInt64} {ts : List Tree} {rank : Nat}
    (even : (interior n ts).HasRank rank) :
    ∃ below, rank = below + 2 ∧ ∀ t ∈ ts, t.HasRank (below + 1) := by
  cases rank with
  | zero => exact absurd even (not_hasRank_zero _)
  | succ rank =>
    obtain ⟨pos, parts⟩ := (hasRank_interior n ts rank).1 even
    obtain ⟨below, rfl⟩ := Nat.exists_eq_succ_of_ne_zero (Nat.ne_of_gt pos)
    exact ⟨below, rfl, parts⟩

/-! ### New trees -/

theorem wellFormed_zeros {s : Shape} (nonempty : s ≠ []) : (zeros s).WellFormed := by
  induction s using Shape.check.induct with
  | case1 => exact absurd rfl nonempty
  | case2 extent => exact Leaf.wellFormed_zeros extent
  | case3 extent next inner ih =>
    rw [zeros_cons_cons, wellFormed_interior, List.length_replicate]
    refine ⟨rfl, fun t part => ?_⟩
    rw [List.eq_of_mem_replicate part]
    exact ih (by simp)

theorem hasRank_zeros {s : Shape} (nonempty : s ≠ []) : (zeros s).HasRank s.length := by
  induction s using Shape.check.induct with
  | case1 => exact absurd rfl nonempty
  | case2 extent => simp [zeros_singleton]
  | case3 extent next inner ih =>
    rw [zeros_cons_cons, List.length_cons, hasRank_interior]
    refine ⟨by simp, fun t part => ?_⟩
    rw [List.eq_of_mem_replicate part]
    exact ih (by simp)

/-- The array of a new tree at a path is a new tree itself, of the extents that are left. -/
theorem eq_zeros_of_at? {s : Shape} {path : List Nat} {t : Tree} (nonempty : s ≠ [])
    (found : (zeros s).at? path = some t) :
    path.length < s.length ∧ t = zeros (s.drop path.length) := by
  induction path generalizing s with
  | nil =>
    rw [at?_nil, Option.some_inj] at found
    exact ⟨List.length_pos_iff.2 nonempty, found.symm⟩
  | cons i rest ih =>
    obtain ⟨c, child, below⟩ := at?_cons_eq_some_iff.1 found
    match s with
    | [] => exact absurd rfl nonempty
    | [extent] => simp [zeros_singleton, child?, children] at child
    | extent :: next :: inner =>
      rw [zeros_cons_cons] at child
      have same : c = zeros (next :: inner) :=
        List.eq_of_mem_replicate (List.mem_of_getElem? child)
      subst same
      obtain ⟨short, here⟩ := ih (by simp) below
      exact ⟨Nat.succ_lt_succ short, here⟩

/-- Where a path leads to an array of a new tree, the checks for that array were made. -/
theorem check_of_at? {onLeaf onInterior : UInt64 → Except Fault Unit} {s : Shape}
    {path : List Nat} {t : Tree} (passed : s.check onLeaf onInterior = .ok ())
    (found : (zeros s).at? path = some t) :
    Shape.check onLeaf onInterior (s.drop path.length) = .ok () := by
  induction path generalizing s with
  | nil => exact passed
  | cons i rest ih =>
    obtain ⟨c, child, below⟩ := at?_cons_eq_some_iff.1 found
    match s with
    | [] => cases passed
    | [extent] => simp [zeros_singleton, child?, children] at child
    | extent :: next :: inner =>
      rw [zeros_cons_cons] at child
      have member := List.mem_of_getElem? child
      obtain rfl : c = zeros (next :: inner) := List.eq_of_mem_replicate member
      have elements : extent ≠ 0 := by
        rintro rfl
        simp [children] at member
      exact ih ((Shape.check_cons_cons_eq_ok_iff.1 passed).2 elements) below

end Tree

end ArrayLayout
