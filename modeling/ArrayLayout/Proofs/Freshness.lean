/-
A nested array that was built in memory is new, complete and free of sharing.

The builder leaves the tree of zeros in one stretch behind the old blocks.  The places of
that stretch are exactly the places of paths, one path for each, so nothing is shared,
nothing is left over, and the old blocks are out of reach.

* `Heap.live` — the live blocks of memory, `Heap.blockCells` — the cells of one;
* `Heap.Built.live_sdiff_live` — the new blocks are one stretch;
* `Heap.Holds.sum_blockCells` — the cells of a stretch are those of its tree;
* `Heap.FreshlyBuilt` — all that is true of memory after a nested array was built;
* `Heap.freshlyBuilt_of_build` — it is true after every build that does not stop.
-/
import ArrayLayout.Proofs.Construction

namespace ArrayLayout

open ArrayLayout.Tree

namespace Heap

/-- References to the live blocks. -/
def live (h : Heap) : Finset Ref :=
  ((Finset.range h.blocks.size).image Ref.mk).filter fun r => (h.block? r).isSome

/-- Number of cells of a block; none if it is not live. -/
def blockCells (h : Heap) (r : Ref) : Nat := ((h.block? r).getD []).length

theorem mem_live {h : Heap} {r : Ref} : r ∈ h.live ↔ ∃ cells, h.block? r = some cells := by
  rw [live, Finset.mem_filter, Option.isSome_iff_exists]
  constructor
  · rintro ⟨-, alive⟩
    exact alive
  · rintro ⟨cells, alive⟩
    refine ⟨?_, cells, alive⟩
    exact Finset.mem_image.2 ⟨r.index, Finset.mem_range.2 (ref_lt_of_block? alive), rfl⟩

variable {h h' : Heap} {t : Tree} {base : Nat}

/-! ### The stretch of a tree -/

/-- Every place of the stretch is a live block. -/
theorem Holds.exists_block?_add (held : h.Holds t base) {k : Nat} (bound : k < t.size) :
    ∃ cells, h.block? ⟨base + k⟩ = some cells := by
  obtain ⟨path, place⟩ := t.exists_offset? bound
  obtain ⟨s, found⟩ := exists_at?_of_offset? place
  exact (held.part found place).exists_block?

/-- Blocks of a list of trees that follow each other, counted tree by tree. -/
theorem sum_range_before {ts : List Tree} {cells : Nat → Nat}
    (each : ∀ i t, ts[i]? = some t →
      ∑ k ∈ Finset.range t.size, cells (before ts i + k) = t.footprint.cells) :
    ∑ k ∈ Finset.range (ts.map size).sum, cells k =
      (ts.map fun t => t.footprint.cells).sum := by
  induction ts generalizing cells with
  | nil => rfl
  | cons t ts ih =>
    have first : ∑ k ∈ Finset.range t.size, cells k = t.footprint.cells := by
      simpa using each 0 t rfl
    have others : ∑ k ∈ Finset.range (ts.map size).sum, cells (t.size + k) =
        (ts.map fun t => t.footprint.cells).sum := by
      refine ih fun i s child => ?_
      have shift : before (t :: ts) (i + 1) = t.size + before ts i := by
        simp [before]
      have there := each (i + 1) s (by simpa using child)
      simpa only [shift, Nat.add_assoc] using there
    rw [List.map_cons, List.sum_cons, Finset.sum_range_add, first, others, List.map_cons,
      List.sum_cons]

/-- The blocks of a tree have as many cells as its footprint says. -/
theorem Holds.sum_blockCells (held : h.Holds t base) (sound : t.WellFormed) :
    ∑ k ∈ Finset.range t.size, h.blockCells ⟨base + k⟩ = t.footprint.cells := by
  induction held with
  | @leaf l base block =>
    have count : l.cells.length = l.length.toNat + 1 := sound
    simp [blockCells, block, count]
  | @interior n ts base block subs ih =>
    obtain ⟨count, sounds⟩ := (wellFormed_interior n ts).1 sound
    have own : h.blockCells ⟨base⟩ = n.toNat + 1 := by
      simp [blockCells, block, count]
    have below : ∑ k ∈ Finset.range (ts.map size).sum, h.blockCells ⟨base + 1 + k⟩ =
        (ts.map fun t => t.footprint.cells).sum := by
      refine sum_range_before fun i t child => ?_
      simpa only [Nat.add_assoc] using ih i t child (sounds t (List.mem_of_getElem? child))
    rw [size_interior, Finset.sum_range_add, Finset.sum_range_one, Nat.add_zero, own]
    simp only [← Nat.add_assoc] at below ⊢
    rw [below, footprint_interior, Footprint.cells_add, Footprint.cells_sum, List.map_map]
    rfl

/-- The new blocks are the stretch behind the old ones. -/
theorem Built.live_sdiff_live (built : Built h h' t) :
    h'.live \ h.live = (Finset.range t.size).image fun k => ⟨h.next.index + k⟩ := by
  ext r
  rw [Finset.mem_sdiff, mem_live, mem_live, Finset.mem_image]
  constructor
  · -- a block that is not old is behind the old ones, and the stretch ends memory
    rintro ⟨⟨cells, alive⟩, fresh⟩
    have later : h.next.index ≤ r.index := by
      by_contra old
      exact fresh ⟨cells, (built.frame r (Nat.lt_of_not_le old)).symm.trans alive⟩
    have bound : r.index < h'.next.index := ref_lt_of_block? alive
    rw [built.next] at bound
    refine ⟨r.index - h.next.index, Finset.mem_range.2 (by omega), ?_⟩
    rw [Nat.add_sub_cancel' later]
  · rintro ⟨k, bound, rfl⟩
    refine ⟨built.holds.exists_block?_add (Finset.mem_range.1 bound), ?_⟩
    rintro ⟨cells, old⟩
    have low : h.next.index + k < h.next.index := ref_lt_of_block? old
    omega

theorem index_injective (base : Nat) :
    Function.Injective fun k => (⟨base + k⟩ : Ref) := by
  intro j k same
  have := congrArg Ref.index same
  exact Nat.add_left_cancel this

theorem Built.card_live_sdiff_live (built : Built h h' t) :
    (h'.live \ h.live).card = t.footprint.arrays := by
  rw [built.live_sdiff_live, Finset.card_image_of_injective _ (index_injective _),
    Finset.card_range]
  rfl

theorem Built.sum_live_sdiff_live (built : Built h h' t) (sound : t.WellFormed) :
    ∑ r ∈ h'.live \ h.live, h'.blockCells r = t.footprint.cells := by
  rw [built.live_sdiff_live, Finset.sum_image fun j _ k _ same => index_injective _ same]
  exact built.holds.sum_blockCells sound

/-- What the builder in memory does when it does not stop. -/
theorem built_of_run_build {s : Shape} {root : Ref} (ran : (build s).run h = .ok (root, h')) :
    s ≠ [] ∧ root = h.next ∧ Built h h' (zeros s) := by
  -- whether the builder stops does not depend on memory, only on the shape
  cases passed : s.check checkBlock checkBlock with
  | error fault =>
    rw [run_build_of_fault passed] at ran
    cases ran
  | ok _ =>
    obtain ⟨h'', ran', built⟩ := run_build_of_check passed h
    rw [ran'] at ran
    cases ran
    exact ⟨Shape.ne_nil_of_check passed, rfl, built⟩

/-! ### All that is true after a build -/

/-- A nested array of shape `s` at `root` was added to memory `h`, which gave `h'`.  Its
arrays are those that paths of fewer than `s.length` indices lead to. -/
structure FreshlyBuilt (h h' : Heap) (root : Ref) (s : Shape) : Prop where
  -- every array that was there before has the same cells as before
  frame : ∀ r cells, h.block? r = some cells → h'.block? r = some cells
  -- every array of the nested array is new
  fresh : ∀ path r, path.length < s.length → h'.follow? root path = some r →
    r ∈ h'.live \ h.live
  -- only one path leads to each of them
  unshared : ∀ path path' r, path.length < s.length → path'.length < s.length →
    h'.follow? root path = some r → h'.follow? root path' = some r → path = path'
  -- there are no other new arrays
  complete : ∀ r ∈ h'.live \ h.live, ∃ path, path.length < s.length ∧
    h'.follow? root path = some r
  -- there are as many new arrays, with as many cells, as the footprint says
  cost : ∀ f, Footprint.of? s = some f →
    (h'.live \ h.live).card = f.arrays ∧ ∑ r ∈ h'.live \ h.live, h'.blockCells r = f.cells
  -- each array holds the extent of its depth in its length cell
  lengths : ∀ path r, path.length < s.length → h'.follow? root path = some r →
    h'.length? r = s[path.length]?
  -- each innermost array holds, after that, as many zeros
  zeros : ∀ path r extent, path.length + 1 = s.length → s[path.length]? = some extent →
    h'.follow? root path = some r →
    h'.block? r = some (.num extent :: List.replicate extent.toNat (.num 0))

/-- Following a path from a nested array that was just built ends at the place of the
path, and there stands the tree of zeros of the extents that are left. -/
theorem Built.of_follow? {s : Shape} (built : Built h h' (Tree.zeros s)) (nonempty : s ≠ [])
    {path : List Nat} {r : Ref} (led : h'.follow? h.next path = some r) :
    ∃ k, (Tree.zeros s).offset? path = some k ∧ r = ⟨h.next.index + k⟩ ∧
      path.length < s.length ∧ h'.Holds (Tree.zeros (s.drop path.length)) r.index := by
  rw [show h.next = ⟨h.next.index⟩ from rfl,
    built.holds.follow? (wellFormed_zeros nonempty), Option.map_eq_some_iff] at led
  obtain ⟨k, place, rfl⟩ := led
  obtain ⟨u, found⟩ := exists_at?_of_offset? place
  have held := built.holds.part found place
  obtain ⟨short, rfl⟩ := eq_zeros_of_at? nonempty found
  exact ⟨k, place, rfl, short, held⟩

theorem length_zeros_cons (extent : UInt64) (inner : Shape) :
    (Tree.zeros (extent :: inner)).length = extent := by
  cases inner <;> rfl

/-- A build in memory that does not stop adds a nested array of its shape that is new,
complete and shares nothing, and changes nothing else. -/
theorem freshlyBuilt_of_build {s : Shape} {root : Ref}
    (ran : (build s).run h = .ok (root, h')) : FreshlyBuilt h h' root s := by
  obtain ⟨nonempty, rfl, built⟩ := built_of_run_build ran
  have sound := wellFormed_zeros nonempty
  constructor
  case frame =>
    intro r cells old
    exact (built.frame r (ref_lt_of_block? old)).trans old
  case fresh =>
    intro path r _ led
    obtain ⟨k, place, rfl, -, -⟩ := built.of_follow? nonempty led
    rw [built.live_sdiff_live]
    exact Finset.mem_image.2 ⟨k, Finset.mem_range.2 (offset?_lt place), rfl⟩
  case unshared =>
    intro path path' r _ _ led led'
    obtain ⟨k, place, rfl, -, -⟩ := built.of_follow? nonempty led
    obtain ⟨k', place', same, -, -⟩ := built.of_follow? nonempty led'
    obtain rfl : k = k' := index_injective _ same
    exact offset?_inj place place'
  case complete =>
    intro r new
    rw [built.live_sdiff_live] at new
    obtain ⟨k, bound, rfl⟩ := Finset.mem_image.1 new
    obtain ⟨path, place⟩ := (Tree.zeros s).exists_offset? (Finset.mem_range.1 bound)
    have led : h'.follow? h.next path = some ⟨h.next.index + k⟩ := by
      rw [show h.next = ⟨h.next.index⟩ from rfl, built.holds.follow? sound, place]
      rfl
    obtain ⟨-, -, -, short, -⟩ := built.of_follow? nonempty led
    exact ⟨path, short, led⟩
  case cost =>
    intro f counted
    obtain rfl := Footprint.of?_eq_some counted nonempty
    rw [← footprint_zeros nonempty]
    exact ⟨built.card_live_sdiff_live, built.sum_live_sdiff_live sound⟩
  case lengths =>
    intro path r _ led
    obtain ⟨k, -, rfl, short, held⟩ := built.of_follow? nonempty led
    rw [List.drop_eq_getElem_cons short] at held
    have read := held.length? (wellFormed_zeros (List.cons_ne_nil _ _))
    rw [length_zeros_cons] at read
    rw [List.getElem?_eq_getElem short]
    exact read
  case zeros =>
    intro path r extent last known led
    obtain ⟨k, -, rfl, short, held⟩ := built.of_follow? nonempty led
    have left : s.drop path.length = [extent] := by
      rw [List.drop_eq_getElem_cons short, List.drop_of_length_le (by omega)]
      rw [List.getElem?_eq_getElem short, Option.some_inj] at known
      rw [known]
    rw [left] at held
    cases held with
    | leaf block => simpa [Leaf.zeros] using block

/-- A new array of two rows of three numbers, behind a live block and a freed one. -/
theorem freshlyBuilt_two_rows :
    ∃ root h', (build [2, 3]).run ⟨#[some [.num 7], none]⟩ = .ok (root, h') ∧
      FreshlyBuilt ⟨#[some [.num 7], none]⟩ h' root [2, 3] :=
  ⟨_, _, rfl, freshlyBuilt_of_build rfl⟩

end Heap

end ArrayLayout
