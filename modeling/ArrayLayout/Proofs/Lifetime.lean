/-
From the build of a nested array to its release.

Whoever builds a nested array may write numbers into its innermost arrays, as often as they
like, and gives it back in the end.  A write of a number moves nothing: the same tree of
references, with the same lengths, is in the same blocks.  So the array can be given back, and
then memory is as it was before the build.

* `Heap.NumberWrite` — a write of one number into an innermost array;
* `Heap.Renumbered` — what such writes leave as it is, kept by each of them
  (`Heap.Renumbered.write`) and by all (`Heap.Renumbered.writes`);
* `Heap.Built.exists_layout` — the layout that each new array was allocated with;
* `Heap.Undone` — all that is true after a nested array was given back;
* `Heap.release?_of_build` — it is true after every build, whatever numbers are written.
-/
import ArrayLayout.Proofs.Release
import ArrayLayout.Proofs.Writes
import Mathlib.Logic.Relation

namespace ArrayLayout

open ArrayLayout.Tree

namespace Heap

variable {h h₁ h₂ h' : Heap} {t : Tree} {s : Shape} {root r : Ref} {base size rank : Nat}

/-! ### Writes of numbers -/

/-- A number is written into an innermost array of the nested array of `rank` dimensions at
`root`. -/
inductive NumberWrite (root : Ref) (rank : Nat) (h : Heap) : Heap → Prop where
  | store {path : List Nat} {array : Ref} {n : UInt64} {index : Nat} (value : UInt64)
    (deep : path.length + 1 = rank) (led : h.follow? root path = some array)
    (len : h.length? array = some n) (bound : index < n.toNat) :
    NumberWrite root rank h (h.store array (lengthCell + 1 + index) (.num value))

theorem blockCells_store (h : Heap) (r s : Ref) (index : Nat) (c : Cell) :
    (h.store r index c).blockCells s = h.blockCells s := by
  by_cases same : s = r
  · subst same
    cases block : h.block? s with
    | none => rw [store, block]
    | some cells =>
      rw [blockCells, blockCells, block?_store_self _ _ block, block]
      exact List.length_set
  · rw [blockCells, block?_store_of_ne _ _ same, blockCells]

/-- Every element of an innermost array is the place of a number. -/
theorem Holds.exists_set? {path : List Nat} {array : Ref} {n : UInt64} {index : Nat}
    (held : h.Holds t base) (sound : t.WellFormed) (even : t.HasRank rank)
    (deep : path.length + 1 = rank) (led : h.follow? ⟨base⟩ path = some array)
    (len : h.length? array = some n) (bound : index < n.toNat) (value : UInt64) :
    ∃ t', t.set? (path ++ [index]) value = some t' := by
  rw [held.follow? sound, Option.map_eq_some_iff] at led
  obtain ⟨k, place, rfl⟩ := led
  obtain ⟨u, found⟩ := exists_at?_of_offset? place
  subst deep
  have last := hasRank_of_at? found even
  have there := wellFormed_of_at? found sound
  cases u with
  | interior m us =>
    obtain ⟨below, one, -⟩ := exists_rank_of_interior last
    omega
  | leaf l =>
    have read := ((held.part found place).read_leaf there).1
    obtain rfl : n = l.length := Option.some_inj.1 (len.symm.trans read)
    have room : index < l.payload.length := by
      rwa [((wellFormed_leaf l).1 there).length_payload]
    have number : t.get? (path ++ [index]) = some l.payload[index] := by
      rw [get?_concat, leafAt?, found]
      exact List.getElem?_eq_getElem room
    rw [← Option.isSome_iff_exists, Tree.isSome_set?, number]
    rfl

/-- Memory `h` is like `h₁`, in which a tree of `size` arrays is at `base`, up to the numbers of
that tree. -/
structure Renumbered (h₁ h : Heap) (base size rank : Nat) : Prop where
  stands : ∃ t, h.Holds t base ∧ t.WellFormed ∧ t.HasRank rank ∧ t.size = size
  frame : ∀ r ∉ stretch base (base + size), h.block? r = h₁.block? r
  cells : ∀ r, h.blockCells r = h₁.blockCells r

/-- A write of a number to the tree changes nothing but a number. -/
theorem Renumbered.write (state : Renumbered h₁ h base size rank)
    (written : NumberWrite ⟨base⟩ rank h h') : Renumbered h₁ h' base size rank := by
  obtain ⟨t, held, sound, even, count⟩ := state.stands
  cases written with
  | @store path array n index value deep led len bound =>
    obtain ⟨t', stored⟩ := held.exists_set? sound even deep led len bound value
    obtain ⟨k, -, -, inside, led', -, -, held'⟩ := held.store_number sound stored
    obtain rfl : array = ⟨base + k⟩ := Option.some_inj.1 (led.symm.trans led')
    have cell : lengthCell + 1 + index = index + 1 := by rw [lengthCell, Nat.zero_add, Nat.add_comm]
    rw [cell]
    refine ⟨⟨t', held', wellFormed_of_set? stored sound, hasRank_of_set? stored even, ?_⟩, ?_, ?_⟩
    · rw [size_of_set? stored, count]
    · intro r out
      refine (block?_store_of_ne _ _ ?_).trans (state.frame r out)
      rintro rfl
      refine out (mem_stretch.2 ⟨Nat.le_add_right base k, ?_⟩)
      exact Nat.add_lt_add_left (count ▸ inside) base
    · intro r
      rw [blockCells_store, state.cells]

/-- So do any number of them. -/
theorem Renumbered.writes (state : Renumbered h₁ h base size rank)
    (written : Relation.ReflTransGen (NumberWrite ⟨base⟩ rank) h h') :
    Renumbered h₁ h' base size rank := by
  induction written with
  | refl => exact state
  | tail _ last ih => exact ih.write last

/-! ### After a build -/

theorem check_of_run_build (ran : (build s).run h = .ok (root, h')) :
    s.check checkBlock checkBlock = .ok () := by
  cases passed : s.check checkBlock checkBlock with
  | ok _ => rfl
  | error fault =>
    rw [run_build_of_fault passed] at ran
    cases ran

theorem Built.renumbered (built : Built h h₁ (zeros s)) (nonempty : s ≠ []) :
    Renumbered h₁ h₁ h.next.index (zeros s).size s.length where
  stands := ⟨zeros s, built.holds, wellFormed_zeros nonempty, hasRank_zeros nonempty, rfl⟩
  frame := fun _ _ => rfl
  cells := fun _ => rfl

theorem Built.mem_sdiff_iff (built : Built h h₁ t) :
    r ∈ h₁.live \ h.live ↔ r ∈ stretch h.next.index (h.next.index + t.size) := by
  rw [built.live_sdiff_live, Finset.mem_image, mem_stretch]
  constructor
  · rintro ⟨k, bound, rfl⟩
    have below := Finset.mem_range.1 bound
    exact ⟨Nat.le_add_right _ k, Nat.add_lt_add_left below _⟩
  · rintro ⟨low, high⟩
    refine ⟨r.index - h.next.index, Finset.mem_range.2 (by omega), ?_⟩
    rw [Nat.add_sub_cancel' low]

theorem Holds.blockCells_eq (held : h.Holds t base) (sound : t.WellFormed) :
    h.blockCells ⟨base⟩ = t.length.toNat + 1 := by
  cases held with
  | @leaf l _ block =>
    rw [blockCells, block, Option.getD_some, List.length_map]
    exact sound
  | @interior n ts _ block subs =>
    have count := ((wellFormed_interior n ts).1 sound).1
    rw [blockCells, block, Option.getD_some, List.length_cons, List.length_map, length_subRefs,
      count]
    rfl

theorem blockLayout_of_check {extent : UInt64} (passed : checkBlock extent = .ok ()) :
    blockLayout extent = .ok ⟨cellBytes * (extent.toNat + 1), cellBytes⟩ := by
  rw [blockLayout, if_pos (blockFits_iff.2 (checkBlock_eq_ok_iff.1 passed))]

/-- The block of a new array has the layout that goes with the extent of its depth, and with its
length. -/
theorem Built.exists_layout (built : Built h h₁ (zeros s))
    (passed : s.check checkBlock checkBlock = .ok ()) (new : r ∈ h₁.live \ h.live) :
    ∃ path extent, h₁.follow? h.next path = some r ∧ s[path.length]? = some extent ∧
      h₁.length? r = some extent ∧
      blockLayout extent = .ok ⟨cellBytes * h₁.blockCells r, cellBytes⟩ := by
  have nonempty := Shape.ne_nil_of_check passed
  rw [built.live_sdiff_live] at new
  obtain ⟨k, bound, rfl⟩ := Finset.mem_image.1 new
  obtain ⟨path, place⟩ := (zeros s).exists_offset? (Finset.mem_range.1 bound)
  obtain ⟨u, found⟩ := exists_at?_of_offset? place
  have held := built.holds.part found place
  have checked := check_of_at? passed found
  obtain ⟨short, rfl⟩ := eq_zeros_of_at? nonempty found
  rw [List.drop_eq_getElem_cons short] at held checked
  have sound := wellFormed_zeros (List.cons_ne_nil s[path.length] (s.drop (path.length + 1)))
  have cells := held.blockCells_eq sound
  have length := held.length? sound
  rw [length_zeros_cons] at cells length
  refine ⟨path, s[path.length], ?_, List.getElem?_eq_getElem short, length, ?_⟩
  · rw [show h.next = ⟨h.next.index⟩ from rfl, built.holds.follow? (wellFormed_zeros nonempty),
      place]
    rfl
  · rw [cells]
    refine blockLayout_of_check ?_
    cases below : s.drop (path.length + 1) with
    | nil =>
      rw [below] at checked
      exact checked
    | cons next inner =>
      rw [below] at checked
      exact (Shape.check_cons_cons_eq_ok_iff.1 checked).1

/-! ### After giving back -/

theorem block?_of_next_le (le : h.next.index ≤ r.index) : h.block? r = none := by
  cases block : h.block? r with
  | none => rfl
  | some cells => exact absurd (ref_lt_of_block? block) (Nat.not_lt_of_le le)

/-- The build of a nested array of shape `s` at `root`, which took memory from `h` to `h₁`, was
undone by the accesses of a log, and `h₃` is left. -/
structure Undone (h h₁ h₃ : Heap) (root : Ref) (s : Shape) (log : List Access) : Prop where
  -- each array that was made is freed exactly once, as a block of its size, and no other is freed
  freed : ∀ r bytes, log.count (.free r bytes) =
    if r ∈ h₁.live \ h.live ∧ bytes = cellBytes * h₁.blockCells r then 1 else 0
  -- this is the layout that the array was allocated with
  layout : ∀ r ∈ h₁.live \ h.live, ∃ path extent, h₁.follow? root path = some r ∧
    s[path.length]? = some extent ∧ h₁.length? r = some extent ∧
    blockLayout extent = .ok ⟨cellBytes * h₁.blockCells r, cellBytes⟩
  -- no array is read, or freed again, after it was freed
  ordered : log.Pairwise Access.CanPrecede
  -- the same arrays are there as before the build, with the same cells
  restored : ∀ r, h₃.block? r = h.block? r

/-- After a build in memory that does not stop, and any writes of numbers, the nested array can
be given back, and this undoes the build. -/
theorem release?_of_build (ran : (build s).run h = .ok (root, h₁))
    (written : Relation.ReflTransGen (NumberWrite root s.length) h₁ h₂) :
    ∃ log h₃, releaseLog? s.length root h₂ = some (log, h₃) ∧
      release? s.length root h₂ = some h₃ ∧ Undone h h₁ h₃ root s log := by
  have passed := check_of_run_build ran
  obtain ⟨nonempty, rfl, built⟩ := built_of_run_build ran
  have state := (built.renumbered nonempty).writes written
  obtain ⟨t, held, sound, even, count⟩ := state.stands
  obtain ⟨log, h₃, logged, given⟩ := held.exists_releaseLog? sound even
  rw [count] at given
  refine ⟨log, h₃, logged, ?_, ?_⟩
  · rw [← map_snd_releaseLog?, show h.next = ⟨h.next.index⟩ from rfl, logged]
    rfl
  constructor
  case layout => exact fun r new => built.exists_layout passed new
  case ordered => exact given.ordered
  case freed =>
    intro r bytes
    have frees := given.frees r bytes
    rw [← built.mem_sdiff_iff, state.cells] at frees
    by_cases new : r ∈ h₁.live \ h.live ∧ bytes = cellBytes * h₁.blockCells r
    · rw [if_pos new]
      have some_time := List.count_pos_iff.2 (frees.2 new)
      have once := Access.count_free_le_one given.ordered r bytes
      omega
    · rw [if_neg new]
      exact List.count_eq_zero.2 fun member => new (frees.1 member)
  case restored =>
    intro r
    by_cases new : r ∈ stretch h.next.index (h.next.index + (zeros s).size)
    · rw [given.gone r new, block?_of_next_le new.1]
    · rw [given.frame r new, state.frame r new]
      -- outside of the new stretch, memory is old, or there is none
      by_cases old : r.index < h.next.index
      · exact built.frame r old
      · rw [block?_of_next_le (Nat.le_of_not_lt old), block?_of_next_le]
        rw [mem_stretch] at new
        rw [built.next]
        omega

/-- Two rows of three numbers, behind a live block and a freed one. -/
def twoRows : Heap :=
  ⟨#[some [.num 7], none, some [.num 2, .ref ⟨3⟩, .ref ⟨4⟩], some (freshCells 3),
    some (freshCells 3)]⟩

/-- They are built, get a number at the end of the second row, and are given back. -/
theorem release?_two_rows :
    (build [2, 3]).run ⟨#[some [.num 7], none]⟩ = .ok (⟨2⟩, twoRows) ∧
      NumberWrite ⟨2⟩ 2 twoRows (twoRows.store ⟨4⟩ (lengthCell + 1 + 2) (.num 9)) ∧
      ∃ log h₃,
        releaseLog? 2 ⟨2⟩ (twoRows.store ⟨4⟩ (lengthCell + 1 + 2) (.num 9)) = some (log, h₃) ∧
        release? 2 ⟨2⟩ (twoRows.store ⟨4⟩ (lengthCell + 1 + 2) (.num 9)) = some h₃ ∧
        Undone ⟨#[some [.num 7], none]⟩ twoRows h₃ ⟨2⟩ [2, 3] log := by
  have ran : (build [2, 3]).run ⟨#[some [.num 7], none]⟩ = .ok (⟨2⟩, twoRows) := rfl
  have second : twoRows.follow? ⟨2⟩ [1] = some ⟨4⟩ := rfl
  have length : twoRows.length? ⟨4⟩ = some 3 := rfl
  have written := NumberWrite.store 9 rfl second length (by decide : 2 < (3 : UInt64).toNat)
  exact ⟨ran, written, release?_of_build ran (.single written)⟩

end Heap

end ArrayLayout
