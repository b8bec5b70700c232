/-
Trees that stand in memory in order.

Memory holds a tree at `base` if its arrays are the blocks from `base` on, each array
before its sub-arrays.  The builder in memory leaves its result in this form, and writes
of numbers keep it.  Since the blocks of a tree are one stretch, two trees are apart as
soon as their stretches are.

* `Heap.Holds` — the relation between a tree and the blocks from `base` on;
* `Heap.Holds.frame` — it depends on nothing but these blocks;
* `Heap.Holds.part` — the array at a path is held at its place;
* `Heap.Holds.tree?` — reading gives the tree back;
* `Heap.Holds.follow?` — following references leads to the place of the path.
-/
import ArrayLayout.Proofs.Preorder
import ArrayLayout.Proofs.Readback

namespace ArrayLayout

/-- References to the sub-arrays of an array at `base`. -/
def Tree.subRefs (ts : List Tree) (base : Nat) : List Ref :=
  (List.range ts.length).map fun i => ⟨base + 1 + Tree.before ts i⟩

namespace Tree

@[simp] theorem length_subRefs (ts : List Tree) (base : Nat) :
    (subRefs ts base).length = ts.length := by
  simp [subRefs]

theorem getElem?_subRefs {ts : List Tree} {i : Nat} (base : Nat) (bound : i < ts.length) :
    (subRefs ts base)[i]? = some ⟨base + 1 + before ts i⟩ := by
  rw [subRefs, List.getElem?_map, List.getElem?_range bound, Option.map_some]

/-- References move only if sizes change. -/
theorem subRefs_congr {ts us : List Tree} (same : ts.map size = us.map size) (base : Nat) :
    subRefs ts base = subRefs us base := by
  have count : ts.length = us.length := by simpa using congrArg List.length same
  rw [subRefs, subRefs, count]
  simp only [before_congr same]

theorem subRefs_concat (ts : List Tree) (t : Tree) (base : Nat) :
    subRefs (ts ++ [t]) base = subRefs ts base ++ [⟨base + 1 + (ts.map size).sum⟩] := by
  rw [subRefs, List.length_append, List.length_singleton, List.range_succ, List.map_append,
    List.map_singleton, before_append [t] (Nat.le_refl _), before_length, subRefs]
  congr 1
  refine List.map_congr_left fun i member => ?_
  rw [before_append [t] (Nat.le_of_lt (List.mem_range.1 member))]

end Tree

open ArrayLayout.Tree

namespace Heap

/-- The arrays of a tree are the blocks from `base` on, each before its sub-arrays. -/
inductive Holds (h : Heap) : Tree → (base : Nat) → Prop where
  | leaf {l : Leaf} {base : Nat} (block : h.block? ⟨base⟩ = some (l.cells.map Cell.num)) :
    Holds h (.leaf l) base
  | interior {n : UInt64} {ts : List Tree} {base : Nat}
    (block : h.block? ⟨base⟩ = some (.num n :: (subRefs ts base).map Cell.ref))
    (subs : ∀ i t, ts[i]? = some t → Holds h t (base + 1 + before ts i)) :
    Holds h (.interior n ts) base

variable {h h' : Heap} {t s : Tree} {base : Nat}

/-- Only the blocks of the tree itself matter. -/
theorem Holds.frame (held : h.Holds t base)
    (same : ∀ k < t.size, h'.block? ⟨base + k⟩ = h.block? ⟨base + k⟩) : h'.Holds t base := by
  induction held with
  | leaf block => exact .leaf ((same 0 (size_pos _)).trans block)
  | @interior n ts base block subs ih =>
    refine .interior ((same 0 (size_pos _)).trans block) fun i t child => ih i t child ?_
    intro k bound
    have inside := before_add_size_lt n child
    have here := same (1 + before ts i + k) (by omega)
    rwa [← Nat.add_assoc, ← Nat.add_assoc] at here

/-- The array at a path is held at the place of the path. -/
theorem Holds.part (held : h.Holds t base) {path : List Nat} {k : Nat}
    (found : t.at? path = some s) (place : t.offset? path = some k) : h.Holds s (base + k) := by
  induction path generalizing t base k with
  | nil =>
    simp only [offset?_nil, at?_nil, Option.some_inj] at place found
    subst place found
    exact held
  | cons i rest ih =>
    obtain ⟨n, ts, c, j, rfl, child, below, found', rfl⟩ := exists_element_of_offset? place found
    cases held with
    | interior block subs =>
      have deeper := ih (subs i c child) found' below
      rwa [show base + 1 + before ts i + j = base + (1 + before ts i + j) by omega] at deeper

/-! ### Reading one array -/

theorem Holds.exists_block? (held : h.Holds t base) : ∃ cells, h.block? ⟨base⟩ = some cells := by
  cases held with
  | leaf block => exact ⟨_, block⟩
  | interior block subs => exact ⟨_, block⟩

theorem mapM_num? (values : List UInt64) :
    (values.map Cell.num).mapM Cell.num? = some values := by
  induction values with
  | nil => rfl
  | cons value values ih => simp [ih, Cell.num?]

theorem mapM_ref? (refs : List Ref) : (refs.map Cell.ref).mapM Cell.ref? = some refs := by
  induction refs with
  | nil => rfl
  | cons ref refs ih => simp [ih, Cell.ref?]

/-- What is read of a block whose length cell is true: all of it. -/
theorem read_block {r : Ref} {n : UInt64} {rest : List Cell}
    (block : h.block? r = some (.num n :: rest)) (count : rest.length = n.toNat) :
    h.length? r = some n ∧ h.cells? r = some (.num n :: rest) ∧ h.payload? r = some rest := by
  have read := read_of_block block (Nat.le_of_eq count.symm)
  rwa [List.take_of_length_le (Nat.le_of_eq count)] at read

theorem Holds.read_leaf {l : Leaf} (held : h.Holds (.leaf l) base) (sound : l.WellFormed) :
    h.length? ⟨base⟩ = some l.length ∧ h.payload? ⟨base⟩ = some (l.payload.map Cell.num) ∧
      h.leaf? ⟨base⟩ = some l := by
  cases held with
  | leaf block =>
    rw [sound.cells_eq, List.map_cons] at block
    obtain ⟨len, cells, payload⟩ := read_block block (by simp [sound.length_payload])
    refine ⟨len, payload, ?_⟩
    rw [← List.map_cons, ← sound.cells_eq] at cells
    rw [leaf?, cells, Option.bind_eq_bind, Option.bind_some, mapM_num?]
    rfl

theorem Holds.read_interior {n : UInt64} {ts : List Tree} (held : h.Holds (.interior n ts) base)
    (count : ts.length = n.toNat) :
    h.length? ⟨base⟩ = some n ∧ h.payload? ⟨base⟩ = some ((subRefs ts base).map Cell.ref) ∧
      h.children? ⟨base⟩ = some (subRefs ts base) := by
  cases held with
  | interior block subs =>
    obtain ⟨len, -, payload⟩ := read_block block (by simp [count])
    refine ⟨len, payload, ?_⟩
    rw [children?, payload, Option.bind_eq_bind, Option.bind_some, mapM_ref?]

theorem Holds.length? (held : h.Holds t base) (sound : t.WellFormed) :
    h.length? ⟨base⟩ = some t.length := by
  cases t with
  | leaf l => exact (held.read_leaf sound).1
  | interior n ts => exact (held.read_interior ((wellFormed_interior n ts).1 sound).1).1

/-! ### Reading the whole -/

/-- A tree of one rank is read back as it is. -/
theorem Holds.tree? {rank : Nat} (held : h.Holds t base) (sound : t.WellFormed)
    (even : t.HasRank rank) : h.tree? rank ⟨base⟩ = some t := by
  -- the reader goes by the rank alone, since cells do not tell what they are
  induction rank generalizing t base with
  | zero => exact absurd even (not_hasRank_zero t)
  | succ rank ih =>
    cases t with
    | leaf l =>
      obtain rfl : rank = 0 := by simpa using even
      rw [tree?_one, (held.read_leaf sound).2.2, Option.map_some]
    | interior n ts =>
      obtain ⟨pos, parts⟩ := (hasRank_interior n ts rank).1 even
      obtain ⟨count, sounds⟩ := (wellFormed_interior n ts).1 sound
      obtain ⟨len, -, subs⟩ := held.read_interior count
      -- reading goes on at the references, and these are to the places of the elements
      have below : (subRefs ts base).mapM (h.tree? rank) = some ts := by
        refine mapM_eq_some_iff.2 ⟨length_subRefs ts base, ?_⟩
        intro i r t ref child
        have member := List.mem_of_getElem? child
        obtain ⟨bound, -⟩ := List.getElem?_eq_some_iff.1 child
        rw [getElem?_subRefs base bound, Option.some_inj] at ref
        subst ref
        cases held with
        | interior block held => exact ih (held i t child) (sounds t member) (parts t member)
      obtain ⟨deeper, rfl⟩ := Nat.exists_eq_succ_of_ne_zero (Nat.ne_of_gt pos)
      simp only [Heap.tree?, len, subs, Option.bind_eq_bind, Option.bind_some]
      rw [below]
      rfl

/-- References lead along a path to the block at the place of the path. -/
theorem Holds.follow? (held : h.Holds t base) (sound : t.WellFormed) (path : List Nat) :
    h.follow? ⟨base⟩ path = (t.offset? path).map fun k => ⟨base + k⟩ := by
  induction path generalizing t base with
  | nil => simp
  | cons i rest ih =>
    rw [follow?_cons, offset?_cons]
    cases t with
    | leaf l =>
      rw [(held.read_leaf sound).2.1]
      simp [child?, Tree.children, Cell.ref?]
    | interior n ts =>
      obtain ⟨count, sounds⟩ := (wellFormed_interior n ts).1 sound
      rw [(held.read_interior count).2.1, Option.bind_some, List.getElem?_map]
      by_cases bound : i < ts.length
      · have child : ts[i]? = some ts[i] := List.getElem?_eq_getElem bound
        rw [getElem?_subRefs base bound]
        cases held with
        | interior block held =>
          have deeper := ih (held i ts[i] child) (sounds ts[i] (List.getElem_mem bound))
          simp only [Option.map_some, Option.bind_some, Cell.ref?, deeper, child?, Tree.children,
            child, Option.map_map]
          congr 1
          funext k
          show Ref.mk (base + 1 + before ts i + k) = Ref.mk (base + (1 + before ts i + k))
          congr 1
          omega
      · have out : ts[i]? = none := List.getElem?_eq_none (by omega)
        have outRef : (subRefs ts base)[i]? = none :=
          List.getElem?_eq_none (by rw [length_subRefs]; omega)
        simp [child?, Tree.children, out, outRef]

end Heap

end ArrayLayout
