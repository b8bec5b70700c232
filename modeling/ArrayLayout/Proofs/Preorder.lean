/-
Arrays of a tree in order, each before its sub-arrays.

In this order an array is followed by everything below its first element, then by
everything below its second element, and so on: each part of a tree is one stretch.

* `Tree.size` — number of arrays of a tree;
* `Tree.before` — number of arrays below the elements before a given one;
* `Tree.offset?` — the place of the array at a path, counted from zero;
* `Tree.offset?_add_size_le` — a part lies inside the stretch of the whole;
* `Tree.offset?_inj` — two paths never lead to one place;
* `Tree.exists_offset?` — to every place below `Tree.size` leads a path.
-/
import ArrayLayout.Proofs.WellFormed

namespace ArrayLayout

namespace Tree

/-- Number of arrays. -/
def size (t : Tree) : Nat := t.footprint.arrays

@[simp] theorem size_leaf (l : Leaf) : (leaf l).size = 1 := rfl

theorem size_interior (n : UInt64) (ts : List Tree) :
    (interior n ts).size = 1 + (ts.map size).sum := by
  rw [size, footprint_interior, Footprint.arrays_add, Footprint.arrays_sum, List.map_map]
  rfl

theorem size_pos (t : Tree) : 0 < t.size := by
  cases t with
  | leaf l => simp
  | interior n ts =>
    rw [size_interior]
    omega

/-! ### Stretches of sub-arrays -/

/-- Number of arrays below the first `i` elements. -/
def before (ts : List Tree) (i : Nat) : Nat := ((ts.map size).take i).sum

@[simp] theorem before_zero (ts : List Tree) : before ts 0 = 0 := rfl

@[simp] theorem before_length (ts : List Tree) : before ts ts.length = (ts.map size).sum := by
  rw [before, List.take_of_length_le (by simp)]

theorem before_succ {ts : List Tree} {i : Nat} {t : Tree} (child : ts[i]? = some t) :
    before ts (i + 1) = before ts i + t.size := by
  obtain ⟨bound, rfl⟩ := List.getElem?_eq_some_iff.1 child
  rw [before, List.sum_take_succ _ _ (by simpa using bound), List.getElem_map]
  rfl

theorem before_mono (ts : List Tree) {i j : Nat} (le : i ≤ j) : before ts i ≤ before ts j :=
  List.monotone_sum_take (ts.map size) le

/-- The stretch of one element ends before that of a later one starts. -/
theorem before_add_size_le {ts : List Tree} {i j : Nat} {t : Tree} (child : ts[i]? = some t)
    (lt : i < j) : before ts i + t.size ≤ before ts j := by
  rw [← before_succ child]
  exact before_mono ts lt

/-- The stretches of all elements are inside that of the array. -/
theorem before_add_size_lt {ts : List Tree} {i : Nat} {t : Tree} (n : UInt64)
    (child : ts[i]? = some t) : before ts i + t.size < (interior n ts).size := by
  obtain ⟨bound, -⟩ := List.getElem?_eq_some_iff.1 child
  have inside := before_add_size_le child bound
  rw [before_length] at inside
  rw [size_interior]
  omega

/-- Only the sizes of sub-arrays matter. -/
theorem before_congr {ts us : List Tree} (same : ts.map size = us.map size) (i : Nat) :
    before ts i = before us i := by
  rw [before, before, same]

theorem before_append {ts : List Tree} (us : List Tree) {i : Nat} (le : i ≤ ts.length) :
    before (ts ++ us) i = before ts i := by
  rw [before, before, List.map_append, List.take_append_of_le_length (by simpa using le)]

/-- Every place below the elements belongs to the stretch of one of them. -/
theorem exists_before_le (ts : List Tree) {k : Nat} (bound : k < (ts.map size).sum) :
    ∃ i t, ts[i]? = some t ∧ before ts i ≤ k ∧ k < before ts i + t.size := by
  induction ts generalizing k with
  | nil => simp at bound
  | cons t ts ih =>
    rw [List.map_cons, List.sum_cons] at bound
    by_cases first : k < t.size
    · exact ⟨0, t, rfl, Nat.zero_le k, by simpa using first⟩
    · obtain ⟨i, s, child, low, high⟩ := ih (k := k - t.size) (by omega)
      have shift : before (t :: ts) (i + 1) = t.size + before ts i := by
        simp [before]
      exact ⟨i + 1, s, by simpa using child, by omega, by omega⟩

/-! ### Places of paths -/

/-- The place of the array at a path among all arrays. -/
def offset? : Tree → List Nat → Option Nat
  | _, [] => some 0
  | t, i :: rest =>
    (t.child? i).bind fun c => (c.offset? rest).map fun k => 1 + before t.children i + k

@[simp] theorem offset?_nil (t : Tree) : t.offset? [] = some 0 := by
  cases t <;> rfl

theorem offset?_cons (t : Tree) (i : Nat) (rest : List Nat) :
    t.offset? (i :: rest) =
      (t.child? i).bind fun c => (c.offset? rest).map fun k => 1 + before t.children i + k := by
  cases t <;> rfl

theorem offset?_cons_eq_some_iff {t : Tree} {i k : Nat} {rest : List Nat} :
    t.offset? (i :: rest) = some k ↔
      ∃ c j, t.child? i = some c ∧ c.offset? rest = some j ∧ k = 1 + before t.children i + j := by
  rw [offset?_cons, Option.bind_eq_some_iff]
  constructor
  · rintro ⟨c, child, below⟩
    obtain ⟨j, place, rfl⟩ := Option.map_eq_some_iff.1 below
    exact ⟨c, j, child, place, rfl⟩
  · rintro ⟨c, j, child, place, rfl⟩
    exact ⟨c, child, by rw [place, Option.map_some]⟩

/-- A path has a place exactly when it leads to an array. -/
theorem isSome_offset? (t : Tree) (path : List Nat) :
    (t.offset? path).isSome = (t.at? path).isSome := by
  induction path generalizing t with
  | nil => simp
  | cons i rest ih =>
    rw [offset?_cons, at?_cons]
    cases t.child? i with
    | none => rfl
    | some c => simpa using ih c

theorem exists_at?_of_offset? {t : Tree} {path : List Nat} {k : Nat}
    (place : t.offset? path = some k) : ∃ s, t.at? path = some s := by
  rw [← Option.isSome_iff_exists, ← isSome_offset?, place]
  rfl

theorem exists_offset?_of_at? {t s : Tree} {path : List Nat} (found : t.at? path = some s) :
    ∃ k, t.offset? path = some k := by
  rw [← Option.isSome_iff_exists, isSome_offset?, found]
  rfl

/-- An array with a place below the outermost one is an array of some element, with a place in its
stretch. -/
theorem exists_element_of_offset? {t s : Tree} {i k : Nat} {rest : List Nat}
    (place : t.offset? (i :: rest) = some k) (found : t.at? (i :: rest) = some s) :
    ∃ n ts c j, t = interior n ts ∧ ts[i]? = some c ∧ c.offset? rest = some j ∧
      c.at? rest = some s ∧ k = 1 + before ts i + j := by
  obtain ⟨c, j, child, below, rfl⟩ := offset?_cons_eq_some_iff.1 place
  obtain ⟨c', child', found'⟩ := at?_cons_eq_some_iff.1 found
  obtain rfl : c = c' := Option.some_inj.1 (child.symm.trans child')
  cases t with
  | leaf l => simp [child?, children] at child
  | interior n ts => exact ⟨n, ts, c, j, rfl, child, below, found', rfl⟩

/-- The stretch of a part is inside that of the whole. -/
theorem offset?_add_size_le {t s : Tree} {path : List Nat} {k : Nat}
    (place : t.offset? path = some k) (found : t.at? path = some s) : k + s.size ≤ t.size := by
  induction path generalizing t k with
  | nil =>
    simp only [offset?_nil, at?_nil, Option.some_inj] at place found
    subst place found
    omega
  | cons i rest ih =>
    obtain ⟨n, ts, c, j, rfl, child, below, found', rfl⟩ := exists_element_of_offset? place found
    have inner := ih below found'
    have outer := before_add_size_lt n child
    omega

theorem offset?_lt {t : Tree} {path : List Nat} {k : Nat} (place : t.offset? path = some k) :
    k < t.size := by
  obtain ⟨s, found⟩ := exists_at?_of_offset? place
  have inside := offset?_add_size_le place found
  have pos := s.size_pos
  omega

/-- Two paths to one place are one path. -/
theorem offset?_inj {t : Tree} {p q : List Nat} {k : Nat} (atP : t.offset? p = some k)
    (atQ : t.offset? q = some k) : p = q := by
  induction p generalizing t q k with
  | nil =>
    cases q with
    | nil => rfl
    | cons j q =>
      rw [offset?_nil, Option.some_inj] at atP
      obtain ⟨c, m, -, -, rfl⟩ := offset?_cons_eq_some_iff.1 atQ
      omega
  | cons i p ih =>
    obtain ⟨c, m, child, below, rfl⟩ := offset?_cons_eq_some_iff.1 atP
    cases q with
    | nil =>
      rw [offset?_nil, Option.some_inj] at atQ
      omega
    | cons j q =>
      obtain ⟨d, m', child', below', same⟩ := offset?_cons_eq_some_iff.1 atQ
      have boundP := offset?_lt below
      have boundQ := offset?_lt below'
      -- places below different elements are in different stretches
      rcases Nat.lt_trichotomy i j with lt | rfl | gt
      · have apart := before_add_size_le child lt
        omega
      · obtain rfl : c = d := Option.some_inj.1 (child.symm.trans child')
        obtain rfl : m = m' := by omega
        rw [ih below below']
      · have apart := before_add_size_le child' gt
        omega

/-- Some path leads to every place. -/
theorem exists_offset? (t : Tree) {k : Nat} (bound : k < t.size) :
    ∃ path, t.offset? path = some k := by
  induction t generalizing k with
  | leaf l =>
    obtain rfl : k = 0 := by simpa using bound
    exact ⟨[], offset?_nil _⟩
  | interior n ts ih =>
    -- the array itself is at place zero, all other places are below one of its elements
    cases k with
    | zero => exact ⟨[], offset?_nil _⟩
    | succ k =>
      rw [size_interior] at bound
      obtain ⟨i, t, child, low, high⟩ := exists_before_le ts (k := k) (by omega)
      obtain ⟨rest, place⟩ := ih t (List.mem_of_getElem? child) (k := k - before ts i) (by omega)
      refine ⟨i :: rest, offset?_cons_eq_some_iff.2 ⟨t, _, child, place, ?_⟩⟩
      show k + 1 = 1 + before ts i + (k - before ts i)
      omega

end Tree

end ArrayLayout
