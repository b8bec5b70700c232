/-
Writes to a nested array that stands in memory in order.

A change that keeps to the stretch of one part, and leaves that part standing, leaves the
whole standing: the references around it go to the same places as before.

* `Heap.Holds.modify` — changing the part at a path;
* `Heap.Holds.store_number` — writing a number by way of references changes the tree as
  storing it at the path does.
-/
import ArrayLayout.Proofs.Holds
import ArrayLayout.Proofs.Paths

namespace ArrayLayout

open ArrayLayout.Tree

namespace Heap

variable {h h' : Heap} {t t' s s' : Tree} {base k : Nat} {path : List Nat}

/-- A change inside the stretch of the array at a path that puts another tree of the same
size there changes the tree as a whole in the same way. -/
theorem Holds.modify {change : Tree → Option Tree} (held : h.Holds t base)
    (changed : modify? change path t = some t') (found : t.at? path = some s)
    (place : t.offset? path = some k) (applied : change s = some s') (size : s'.size = s.size)
    (part : h'.Holds s' (base + k))
    (frame : ∀ r : Ref, r.index < base + k ∨ base + k + s.size ≤ r.index →
      h'.block? r = h.block? r) :
    h'.Holds t' base ∧ t'.size = t.size := by
  induction path generalizing t t' base k with
  | nil =>
    simp only [modify?_nil, at?_nil, offset?_nil, Option.some_inj] at changed found place
    subst found place
    obtain rfl : s' = t' := Option.some_inj.1 (applied.symm.trans changed)
    exact ⟨part, size⟩
  | cons i rest ih =>
    -- change, place and array go down through the same element
    obtain ⟨n, ts, c, c', rfl, child, below, rfl⟩ := modify?_cons_eq_some_iff.1 changed
    obtain ⟨d, j, child', place', rfl⟩ := offset?_cons_eq_some_iff.1 place
    obtain rfl : c = d := Option.some_inj.1 (child.symm.trans child')
    obtain ⟨d, child'', found'⟩ := at?_cons_eq_some_iff.1 found
    obtain rfl : c = d := Option.some_inj.1 (child.symm.trans child'')
    have inside := offset?_add_size_le place' found'
    change h'.Holds s' (base + (1 + before ts i + j)) at part
    simp only [Tree.children] at frame
    cases held with
    | interior block subs =>
      obtain ⟨heldC, sizeC⟩ := ih (subs i c child) below found' place'
        (by rwa [show base + 1 + before ts i + j = base + (1 + before ts i + j) by omega])
        (fun r away => frame r (by omega))
      have sizes := map_set_of_eq child sizeC
      obtain ⟨bound, -⟩ := List.getElem?_eq_some_iff.1 child
      refine ⟨.interior ?_ ?_, by rw [size_interior, size_interior, sizes]⟩
      · rw [subRefs_congr sizes, frame ⟨base⟩ (.inl (by show base < _; omega)), block]
      · intro m u there
        rw [before_congr sizes]
        by_cases same : i = m
        · subst same
          rw [List.getElem?_set_self bound, Option.some_inj] at there
          subst there
          exact heldC
        · rw [List.getElem?_set_ne same] at there
          -- the stretches of two elements are apart, in one order or the other
          refine (subs m u there).frame fun x low => frame _ ?_
          show base + 1 + before ts m + x < _ ∨ _ ≤ base + 1 + before ts m + x
          rcases Nat.lt_or_gt_of_ne same with lt | gt
          · have apart := before_add_size_le child lt
            omega
          · have apart := before_add_size_le there gt
            omega

/-- The leaf at a path can be written by way of references.  Cell `last + 1` holds the
number of index `last`, and writing it stores a number at the path. -/
theorem Holds.store_number {outer : List Nat} {last : Nat} {value : UInt64}
    (held : h.Holds t base) (sound : t.WellFormed)
    (stored : t.set? (outer ++ [last]) value = some t') :
    ∃ k cells old, k < t.size ∧ h.follow? ⟨base⟩ outer = some ⟨base + k⟩ ∧
      h.block? ⟨base + k⟩ = some cells ∧ cells[last + 1]? = some old ∧
      (h.store ⟨base + k⟩ (last + 1) (.num value)).Holds t' base := by
  rw [set?_concat] at stored
  obtain ⟨l, l', leafAt, applied, -⟩ := leafAt?_of_modify? stored
  obtain ⟨s, found, leaf⟩ := Option.bind_eq_some_iff.1 leafAt
  obtain rfl : s = .leaf l := by
    cases s with
    | leaf l₀ => rw [Option.some_inj.1 leaf]
    | interior n ts => cases leaf
  obtain ⟨k, place⟩ := exists_offset?_of_at? found
  have here := held.part found place
  have room : last < l.payload.length := Leaf.isSome_set?.1 (by rw [applied]; rfl)
  have cells' : l'.cells = l.cells.set (last + 1) value := by
    simp only [Leaf.set?, if_pos room, Option.some_inj] at applied
    rw [← applied, lengthCell, Nat.zero_add, Nat.add_comm]
  cases here with
  | leaf block =>
    have length : l.cells.length = l.payload.length + 1 := by
      rw [Leaf.payload, List.length_drop, lengthCell] at room ⊢
      omega
    obtain ⟨old, known⟩ : ∃ old, (l.cells.map Cell.num)[last + 1]? = some old :=
      Option.isSome_iff_exists.1 (by simp [length, room])
    have part : (h.store ⟨base + k⟩ (last + 1) (.num value)).Holds (.leaf l') (base + k) := by
      refine .leaf ?_
      rw [block?_store_self _ _ block, cells', List.map_set]
    have change : onLeaf? (fun l => l.set? last value) (.leaf l) = some (.leaf l') := by
      rw [onLeaf?, applied, Option.map_some]
    refine ⟨k, _, old, offset?_lt place, ?_, block, known, ?_⟩
    · rw [held.follow? sound, place, Option.map_some]
    · refine (held.modify stored found place change rfl part ?_).1
      intro r away
      refine block?_store_of_ne _ _ ?_
      rintro rfl
      simp only [size_leaf] at away
      omega

end Heap

end ArrayLayout
