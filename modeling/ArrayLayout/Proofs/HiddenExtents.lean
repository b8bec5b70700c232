/-
Extents that nothing is left of.

Below an array without elements nothing is built, so what stands behind a zero in a shape leaves
no trace.  A tree still shows whether there was anything behind the zero: if so the empty array
is an interior one, and otherwise a leaf.  In memory not even that can be seen, since a block of
length zero is the same for both.

* `Shape.FirstZero` — the place of the first zero; `Shape.AgreeThrough` — shapes that agree up to
  some place and there;
* `Shape.Alike` — shapes that are equal, or agree through a first zero and both go on;
* `Tree.conforms_iff_alike` — a tree with one shape has all the shapes that are alike, and no other;
* `Tree.shape_unique_up_to_alike` — so exactly such shapes are built into the same tree;
* `Heap.build_of_agree` — in memory agreement through a zero is enough;
* `Heap.readTree_behind_zero` — so blocks of one shape are read as a tree of another.
-/
import ArrayLayout.Proofs.Agreement
import ArrayLayout.Proofs.ZeroedShape

namespace ArrayLayout

namespace Shape

/-- The first zero of the extents is at `k`. -/
structure FirstZero (s : Shape) (k : Nat) : Prop where
  zero : s[k]? = some 0
  before : ∀ j < k, s[j]? ≠ some 0

/-- Two shapes have the same extents at the depths up to and including `k`. -/
def AgreeThrough (s s' : Shape) (k : Nat) : Prop := ∀ j ≤ k, s'[j]? = s[j]?

/-- Two shapes are equal, or agree through the first zero and both have further extents. -/
def Alike (s s' : Shape) : Prop :=
  s = s' ∨ ∃ k, s.FirstZero k ∧ k + 1 < s.length ∧ k + 1 < s'.length ∧ s.AgreeThrough s' k

variable {s s' inner inner' : Shape} {extent extent' : UInt64} {k : Nat}

/-! ### Extent by extent -/

theorem FirstZero.eq_zero (first : FirstZero (0 :: inner) k) : k = 0 := by
  cases k with
  | zero => rfl
  | succ k => exact absurd rfl (first.before 0 (Nat.succ_pos k))

theorem firstZero_zero_cons (inner : Shape) : FirstZero (0 :: inner) 0 :=
  ⟨rfl, fun _ lt => absurd lt (Nat.not_lt_zero _)⟩

/-- Behind an extent that is not zero, the first zero is the first of the others. -/
theorem firstZero_cons_iff (elements : extent ≠ 0) :
    FirstZero (extent :: inner) k ↔ ∃ j, k = j + 1 ∧ FirstZero inner j := by
  constructor
  · rintro ⟨zero, before⟩
    cases k with
    | zero => exact absurd (Option.some.inj zero) elements
    | succ j =>
      refine ⟨j, rfl, zero, ?_⟩
      intro i lt
      exact before (i + 1) (Nat.succ_lt_succ lt)
  · rintro ⟨j, rfl, zero, before⟩
    refine ⟨zero, ?_⟩
    intro i lt
    cases i with
    | zero => simpa using elements
    | succ i => exact before i (Nat.lt_of_succ_lt_succ lt)

theorem agreeThrough_cons_zero :
    AgreeThrough (extent :: inner) (extent' :: inner') 0 ↔ extent' = extent := by
  simp [AgreeThrough]

theorem agreeThrough_cons_succ :
    AgreeThrough (extent :: inner) (extent' :: inner') (k + 1) ↔
      extent' = extent ∧ AgreeThrough inner inner' k := by
  constructor
  · intro agree
    exact ⟨Option.some.inj (agree 0 (Nat.zero_le _)),
      fun j le => agree (j + 1) (Nat.succ_le_succ le)⟩
  · rintro ⟨rfl, agree⟩ j le
    cases j with
    | zero => rfl
    | succ j => exact agree j (Nat.le_of_succ_le_succ le)

/-- Shapes that agree through some depth start with the same extent. -/
theorem AgreeThrough.exists_cons (agree : AgreeThrough (extent :: inner) s' k) :
    ∃ inner', s' = extent :: inner' := by
  have first := agree 0 (Nat.zero_le k)
  cases s' with
  | nil => cases first
  | cons extent' inner' =>
    obtain rfl : extent' = extent := Option.some.inj first
    exact ⟨inner', rfl⟩

/-! ### Shapes that are alike -/

/-- A shape of one extent is like no other. -/
theorem alike_singleton_iff : Alike [extent] s' ↔ s' = [extent] := by
  constructor
  · rintro (rfl | ⟨k, -, short, -⟩)
    · rfl
    · simp at short
  · rintro rfl
    exact .inl rfl

/-- Behind a zero anything will do, as long as there is something. -/
theorem alike_zero_cons_iff (more : inner ≠ []) :
    Alike (0 :: inner) s' ↔ ∃ inner', s' = 0 :: inner' ∧ inner' ≠ [] := by
  constructor
  · rintro (rfl | ⟨k, first, -, long, agree⟩)
    · exact ⟨inner, rfl, more⟩
    · obtain rfl := first.eq_zero
      obtain ⟨inner', rfl⟩ := agree.exists_cons
      refine ⟨inner', rfl, ?_⟩
      rintro rfl
      simp at long
  · rintro ⟨inner', rfl, more'⟩
    refine .inr ⟨0, firstZero_zero_cons inner, ?_, ?_, agreeThrough_cons_zero.2 rfl⟩
    · simpa using List.length_pos_iff.2 more
    · simpa using List.length_pos_iff.2 more'

/-- Behind an extent that is not zero, the other extents have to be alike. -/
theorem alike_cons_iff (elements : extent ≠ 0) :
    Alike (extent :: inner) s' ↔ ∃ inner', s' = extent :: inner' ∧ Alike inner inner' := by
  constructor
  · rintro (rfl | ⟨k, first, short, long, agree⟩)
    · exact ⟨inner, rfl, .inl rfl⟩
    · obtain ⟨j, rfl, below⟩ := (firstZero_cons_iff elements).1 first
      obtain ⟨inner', rfl⟩ := agree.exists_cons
      refine ⟨inner', rfl, .inr ⟨j, below, ?_, ?_, (agreeThrough_cons_succ.1 agree).2⟩⟩
      · simpa using short
      · simpa using long
  · rintro ⟨inner', rfl, rfl | ⟨j, below, short, long, agree⟩⟩
    · exact .inl rfl
    · refine .inr ⟨j + 1, (firstZero_cons_iff elements).2 ⟨j, rfl, below⟩, ?_, ?_,
        agreeThrough_cons_succ.2 ⟨rfl, agree⟩⟩
      · simpa using short
      · simpa using long

end Shape

/-! ### Trees -/

namespace Tree

variable {t : Tree} {s s' : Shape}

/-- All shapes of a tree are alike, and it has all the shapes that are alike. -/
theorem conforms_iff_alike (sound : t.WellFormed) (fits : t.conforms s = true) :
    t.conforms s' = true ↔ s.Alike s' := by
  refine conforms_rec (motive := fun t s => ∀ s', t.conforms s' = true ↔ s.Alike s')
    ?_ ?_ sound fits s'
  · intro l _ s'
    rw [conforms_leaf_iff, Shape.alike_singleton_iff]
  · intro n ts inner more count _ ih s'
    rw [conforms_interior_iff]
    cases ts with
    | nil =>
      -- nothing is there to tell what the elements would be
      obtain rfl : n = 0 := UInt64.toNat_inj.1 count.symm
      simp [Shape.alike_zero_cons_iff more]
    | cons c rest =>
      have elements : n ≠ 0 := by
        rintro rfl
        simp at count
      rw [Shape.alike_cons_iff elements]
      constructor
      · rintro ⟨inner', rfl, -, parts⟩
        exact ⟨inner', rfl, (ih c List.mem_cons_self inner').1 (parts c List.mem_cons_self)⟩
      · rintro ⟨inner', rfl, alike⟩
        have parts : ∀ d ∈ c :: rest, d.conforms inner' = true := by
          intro d part
          exact (ih d part inner').2 alike
        refine ⟨inner', rfl, ?_, parts⟩
        rintro rfl
        simpa using parts c List.mem_cons_self

/-- New trees are equal exactly if their shapes are alike. -/
theorem zeros_eq_zeros_iff (nonempty : s ≠ []) (nonempty' : s' ≠ []) :
    zeros s = zeros s' ↔ s.Alike s' := by
  rw [← conforms_iff_alike (wellFormed_zeros nonempty) (conforms_zeros nonempty)]
  constructor
  · intro same
    rw [same]
    exact conforms_zeros nonempty'
  · intro fits
    exact eq_zeros_of_conforms (wellFormed_zeros nonempty) fits (isZero_of_mem_leaves_zeros nonempty)

/-- A tree that has one shape has those that are like it, and no other.  So two shapes are built
into the same tree exactly if they are alike. -/
theorem shape_unique_up_to_alike (s s' : Shape) :
    (∀ t : Tree, t.WellFormed → t.conforms s = true → (t.conforms s' = true ↔ s.Alike s')) ∧
      ∀ t u, build s = .ok t → build s' = .ok u → (t = u ↔ s.Alike s') := by
  constructor
  · intro t sound fits
    exact conforms_iff_alike sound fits
  · intro t u builds builds'
    obtain ⟨passed, rfl⟩ := build_eq_ok_iff.1 builds
    obtain ⟨passed', rfl⟩ := build_eq_ok_iff.1 builds'
    exact zeros_eq_zeros_iff (Shape.ne_nil_of_check passed) (Shape.ne_nil_of_check passed')

/-- Two empty rows.  What their elements would be is open, but not that they would be arrays. -/
theorem shape_unique_up_to_alike_empty_rows :
    let rows := interior 2 [.interior 0 [], .interior 0 []]
    rows.WellFormed ∧ build [2, 0, 5] = .ok rows ∧ build [2, 0, 7, 9] = .ok rows ∧
      rows.conforms [2, 0, 5] = true ∧ rows.conforms [2, 0, 7, 9] = true ∧
      Shape.Alike [2, 0, 5] [2, 0, 7, 9] ∧ ¬Shape.Alike [2, 0, 5] [2, 0] := by
  intro rows
  have sound : rows.WellFormed := by
    simp [rows]
  have fits : rows.conforms [2, 0, 5] = true := rfl
  have builds : build [2, 0, 5] = .ok rows := rfl
  have builds' : build [2, 0, 7, 9] = .ok rows := rfl
  obtain ⟨shapes, same⟩ := shape_unique_up_to_alike [2, 0, 5] [2, 0, 7, 9]
  have alike : Shape.Alike [2, 0, 5] [2, 0, 7, 9] := (same rows rows builds builds').1 rfl
  refine ⟨sound, builds, builds', fits, (shapes rows sound fits).2 alike, alike, ?_⟩
  intro leaves
  have fits' := ((shape_unique_up_to_alike [2, 0, 5] [2, 0]).1 rows sound fits).2 leaves
  exact absurd fits' (by decide)

end Tree

/-! ### Memory -/

namespace Heap

variable {s s' : Shape} {k : Nat}

/-- An array without elements is one block, at whatever depth. -/
theorem build_zero_cons (inner : Shape) : build (0 :: inner) = allocate 0 := by
  cases inner with
  | nil => rfl
  | cons next inner =>
    -- the loop over the elements makes no turn
    rw [build_cons_cons, buildInterior, UInt64.toNat_zero]
    simp only [enterFrom, pure_bind, bind_pure]

/-- The builder in memory does the same for all shapes that agree through a zero. -/
theorem build_of_agree (zero : s[k]? = some 0) (agree : s.AgreeThrough s' k) :
    build s' = build s := by
  induction k generalizing s s' with
  | zero =>
    cases s with
    | nil => cases zero
    | cons extent inner =>
      obtain rfl : extent = 0 := Option.some.inj zero
      obtain ⟨inner', rfl⟩ := agree.exists_cons
      rw [build_zero_cons, build_zero_cons]
  | succ k ih =>
    match s with
    | [] => cases zero
    | [extent] => cases zero
    | extent :: next :: inner =>
      obtain ⟨inner', rfl⟩ := agree.exists_cons
      have below := (Shape.agreeThrough_cons_succ.1 agree).2
      have same := ih zero below
      obtain ⟨inner'', rfl⟩ := below.exists_cons
      rw [build_cons_cons, build_cons_cons, same]

/-- Blocks that were built for a shape with a zero are read as the tree of any shape that agrees
with it through the zero, whatever stands behind the zero in both and however many dimensions
that makes.  The builder leaves the same memory for all such shapes. -/
theorem readTree_behind_zero {t : Tree} (zero : s[k]? = some 0) (agree : s.AgreeThrough s' k)
    (builds : Tree.build s' = .ok t) (h : Heap) :
    ∃ root h', (build s).run h = .ok (root, h') ∧ h'.readTree s'.length root = .ok (some t) ∧
      ∀ s'', s.AgreeThrough s'' k → (build s'').run h = .ok (root, h') := by
  obtain ⟨passed, rfl⟩ := Tree.build_eq_ok_iff.1 builds
  have nonempty := Shape.ne_nil_of_check passed
  obtain ⟨h', ran, built⟩ := run_build_of_check (checkBlock_of_check passed) h
  rw [build_of_agree zero agree] at ran
  refine ⟨h.next, h', ran, ?_, ?_⟩
  · exact built.readTree_zeros nonempty
  · intro s'' agree'
    rw [build_of_agree zero agree', ran]

/-- Two empty arrays of rank 3, read as two empty rows of numbers. -/
theorem readTree_behind_zero_rows :
    let s : Shape := [2, 0, 0xFFFF_FFFF_FFFF_FFFF, 4]
    s[1]? = some 0 ∧ s.AgreeThrough [2, 0] 1 ∧
      Tree.build [2, 0] = .ok (.interior 2 [.leaf ⟨[0]⟩, .leaf ⟨[0]⟩]) ∧
      ∃ root h', (build s).run ⟨#[some [.num 7], none]⟩ = .ok (root, h') ∧
        h'.readTree 2 root = .ok (some (.interior 2 [.leaf ⟨[0]⟩, .leaf ⟨[0]⟩])) := by
  intro s
  have zero : s[1]? = some 0 := rfl
  have agree : s.AgreeThrough [2, 0] 1 := by
    rw [Shape.agreeThrough_cons_succ, Shape.agreeThrough_cons_zero]
    exact ⟨rfl, rfl⟩
  have builds : Tree.build [2, 0] = .ok (.interior 2 [.leaf ⟨[0]⟩, .leaf ⟨[0]⟩]) := rfl
  obtain ⟨root, h', ran, read, -⟩ :=
    readTree_behind_zero zero agree builds ⟨#[some [.num 7], none]⟩
  exact ⟨zero, agree, builds, root, h', ran, read⟩

end Heap

end ArrayLayout
