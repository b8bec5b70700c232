/-
Replacing a sub-array.

The new array is seen by the paths that go through its place, from there on as it was
before it was put there.  All other paths lead where they did.  The array that was there
takes its own counts out of the total, and the new one puts in its own.

* `Footprint.sum_set_add` — a sum in which one footprint is replaced;
* `Tree.get?_append_of_at?`, `Tree.get?_of_modify?` — numbers inside and outside of the place;
* `Tree.footprint_of_modify?` — counts before and after;
* `Tree.conforms_of_modify?` — shapes before and after;
* `Tree.countFrom?_of_cells_lt` — only the cells of a tree can be too many for a word;
* `Tree.Replaced`, `Tree.exists_replaced` — all of this for a tree that takes a place.
-/
import ArrayLayout.Proofs.Paths
import ArrayLayout.Proofs.Prediction

namespace ArrayLayout

namespace Footprint

/-- With another footprint in its place, a footprint is missing from the sum. -/
theorem sum_set_add {fs : List Footprint} {i : Nat} {f : Footprint} (entry : fs[i]? = some f)
    (g : Footprint) : (fs.set i g).sum + f = fs.sum + g := by
  induction fs generalizing i with
  | nil => cases entry
  | cons k fs ih =>
    cases i with
    | zero =>
      obtain rfl : k = f := Option.some_inj.1 entry
      rw [List.set_cons_zero, List.sum_cons, List.sum_cons]
      ext <;> simp <;> omega
    | succ i =>
      have rest := ih (i := i) entry
      rw [List.set_cons_succ, List.sum_cons, List.sum_cons, add_assoc, rest, add_assoc]

/-- Arrays have a cell each, and numbers too. -/
theorem le_cells_sum {fs : List Footprint}
    (each : ∀ f ∈ fs, f.arrays ≤ f.cells ∧ f.elements ≤ f.cells) :
    fs.sum.arrays ≤ fs.sum.cells ∧ fs.sum.elements ≤ fs.sum.cells := by
  induction fs with
  | nil => exact ⟨Nat.le_refl 0, Nat.le_refl 0⟩
  | cons f fs ih =>
    obtain ⟨arrays, elements⟩ := each f List.mem_cons_self
    obtain ⟨arrays', elements'⟩ := ih fun g member => each g (List.mem_cons_of_mem f member)
    rw [List.sum_cons]
    exact ⟨Nat.add_le_add arrays arrays', Nat.add_le_add elements elements'⟩

end Footprint

namespace Tree

open Footprint

variable {change : Tree → Option Tree} {t t' s s' : Tree} {path : List Nat}

/-! ### Numbers -/

/-- Where a path leads to an array it does not lead to a number. -/
theorem get?_eq_none_of_at? (found : t.at? path = some s) : t.get? path = none := by
  rcases List.eq_nil_or_concat' path with rfl | ⟨outer, last, rfl⟩
  · rfl
  · rw [at?_append, Option.bind_eq_some_iff] at found
    obtain ⟨around, led, child⟩ := found
    -- the last index leads from an array to one of its elements, so that is no leaf
    cases around with
    | leaf l => simp [child?, children] at child
    | interior n ts => rw [get?_concat, leafAt?, led]; rfl

theorem get?_append_of_at? (found : t.at? path = some s) (q : List Nat) :
    t.get? (path ++ q) = s.get? q := by
  rcases List.eq_nil_or_concat' q with rfl | ⟨outer, last, rfl⟩
  · rw [List.append_nil, get?_eq_none_of_at? found, get?_nil]
  · rw [← List.append_assoc, get?_concat, get?_concat, leafAt?_append_of_at? found]

/-- A change is not seen by numbers outside of its place. -/
theorem get?_of_modify? (changed : modify? change path t = some t') {q : List Nat}
    (off : ¬path <+: q) : t'.get? q = t.get? q := by
  obtain ⟨_, _, -, -, -, elsewhere⟩ := at?_of_modify? changed
  rcases List.eq_nil_or_concat' q with rfl | ⟨outer, last, rfl⟩
  · rfl
  · have short : ¬path <+: outer := fun on => off (on.trans (List.prefix_append outer [last]))
    rw [get?_concat, get?_concat, elsewhere outer short]

/-! ### Counts -/

/-- What a change takes out of the counts, and what it puts in. -/
theorem footprint_of_modify? (changed : modify? change path t = some t')
    (found : t.at? path = some s) (here : t'.at? path = some s') :
    t'.footprint + s.footprint = t.footprint + s'.footprint := by
  induction path generalizing t t' with
  | nil =>
    rw [at?_nil, Option.some_inj] at found here
    rw [found, here]
    ext <;> simp [Nat.add_comm]
  | cons i rest ih =>
    obtain ⟨n, ts, c, c', rfl, child, below, rfl⟩ := modify?_cons_eq_some_iff.1 changed
    obtain ⟨bound, -⟩ := List.getElem?_eq_some_iff.1 child
    rw [at?_interior_cons child] at found
    rw [at?_interior_cons (List.getElem?_set_self bound)] at here
    have inner := ih below found here
    have entry : (ts.map footprint)[i]? = some c.footprint := by
      rw [List.getElem?_map, child, Option.map_some]
    have outer := sum_set_add entry c'.footprint
    rw [footprint_interior, footprint_interior, List.map_set]
    simp only [Footprint.ext_iff, arrays_add, cells_add, elements_add] at inner outer ⊢
    omega

/-- No tree has more arrays than cells, or more numbers. -/
theorem le_cells (t : Tree) :
    t.footprint.arrays ≤ t.footprint.cells ∧ t.footprint.elements ≤ t.footprint.cells := by
  induction t with
  | leaf l => simp
  | interior n ts ih =>
    obtain ⟨arrays, elements⟩ := le_cells_sum (List.forall_mem_map.2 ih)
    simp only [footprint_interior, arrays_add, cells_add, elements_add]
    omega

/-- A walk over a tree ends if the cells can be counted in a word. -/
theorem countFrom?_of_cells_lt (few : t.footprint.cells < wordLimit) :
    t.countFrom? 0 = some t.footprint := by
  obtain ⟨arrays, elements⟩ := le_cells t
  exact countFrom?_zero_of_inWords ⟨by omega, few, by omega⟩

/-! ### Shapes -/

/-- A tree has a shape as before if the changed array has what that shape says for its
depth. -/
theorem conforms_of_modify? (changed : modify? change path t = some t')
    (here : t'.at? path = some s') {dims : Shape} (fits : t.conforms dims = true)
    (inner : s'.conforms (dims.drop path.length) = true) : t'.conforms dims = true := by
  induction path generalizing t t' dims with
  | nil =>
    rw [at?_nil, Option.some_inj] at here
    rw [here]
    exact inner
  | cons i rest ih =>
    obtain ⟨n, ts, c, c', rfl, child, below, rfl⟩ := modify?_cons_eq_some_iff.1 changed
    obtain ⟨bound, -⟩ := List.getElem?_eq_some_iff.1 child
    rw [at?_interior_cons (List.getElem?_set_self bound)] at here
    cases dims with
    | nil => simp at fits
    | cons extent dims =>
      rw [conforms_interior_cons, Bool.and_eq_true, List.all_eq_true] at fits ⊢
      refine ⟨fits.1, fun u part => ?_⟩
      rcases List.mem_or_eq_of_mem_set part with old | rfl
      · exact fits.2 u old
      · exact ih below here (fits.2 c (List.mem_of_getElem? child)) inner

/-! ### Replacing -/

/-- From `t` to `t'` the array `s` at a path has been replaced by `u`, and that is all. -/
structure Replaced (t s u t' : Tree) (path : List Nat) : Prop where
  leafAt?_inside : ∀ q, t'.leafAt? (path ++ q) = u.leafAt? q
  get?_inside : ∀ q, t'.get? (path ++ q) = u.get? q
  leafAt?_outside : ∀ q, ¬path <+: q → t'.leafAt? q = t.leafAt? q
  get?_outside : ∀ q, ¬path <+: q → t'.get? q = t.get? q
  footprint : t'.footprint + s.footprint = t.footprint + u.footprint
  /-- Footprints are what a walk finds, unless a tree has more cells than a word counts. -/
  counted : ∀ v ∈ [t, s, u, t'], v.footprint.cells < wordLimit →
    v.countFrom? 0 = some v.footprint
  conforms : ∀ dims, t.conforms dims = true → u.conforms (dims.drop path.length) = true →
    t'.conforms dims = true

/-- Any tree can take the place of any array of a tree, and replaces that array only. -/
theorem exists_replaced (found : t.at? path = some s) (u : Tree) :
    ∃ t', t.replaceAt? path u = some t' ∧ Replaced t s u t' path := by
  have applies : (t.replaceAt? path u).isSome = true := by
    rw [replaceAt?, isSome_modify?, found]
    rfl
  obtain ⟨t', changed⟩ := Option.isSome_iff_exists.1 applies
  obtain ⟨_, _, -, run, here, elsewhere⟩ := at?_of_modify? changed
  cases run
  refine ⟨t', changed, ?_⟩
  exact {
    leafAt?_inside := leafAt?_append_of_at? here
    get?_inside := get?_append_of_at? here
    leafAt?_outside := elsewhere
    get?_outside := fun _ => get?_of_modify? changed
    footprint := footprint_of_modify? changed found here
    counted := fun _ _ => countFrom?_of_cells_lt
    conforms := fun _ => conforms_of_modify? changed here }

/-- A row is replaced by a copy of the array that it is a row of. -/
theorem exists_replaced_row :
    let row := leaf ⟨[2, 8, 9]⟩
    let rows := interior 2 [.leaf ⟨[3, 5, 0, 7]⟩, row]
    let nested := interior 2 [.leaf ⟨[3, 5, 0, 7]⟩, rows]
    rows.at? [1] = some row ∧ rows.replaceAt? [1] rows = some nested ∧
      Replaced rows row rows nested [1] := by
  intro row rows nested
  have found : rows.at? [1] = some row := rfl
  obtain ⟨t', changed, replaced⟩ := exists_replaced found rows
  obtain rfl : nested = t' := Option.some_inj.1 changed
  exact ⟨found, changed, replaced⟩

end Tree

end ArrayLayout
