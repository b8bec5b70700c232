/-
The footprint that is predicted is the one that is found.

A shape is tallied level by level, a tree is counted array by array.  Both come to the
exact counts, from above and from the inside out.  The counts of a tree only grow while it
is walked, so a total that fits in words is never left on the way there.

* `Footprint.InWords` — every count fits in a word;
* `Tree.countFrom?_of_inWords` — a walk whose result fits has that result;
* `Tree.footprint_of_conforms` — trees of one shape all cost what the shape says;
* `Tree.conforms_zeros` — new trees have the shape that they were built for;
* `Tree.footprint_eq_predicted` — the prediction, for all trees of a shape, for new trees
  and for trees of admitted requests.
-/
import ArrayLayout.Proofs.Admission
import ArrayLayout.Proofs.Conformance
import ArrayLayout.Proofs.Overflow

namespace ArrayLayout

namespace Footprint

theorem add_assoc (f g k : Footprint) : f + g + k = f + (g + k) := by
  ext <;> simp [Nat.add_assoc]

theorem zero_add (f : Footprint) : 0 + f = f := by
  ext <;> simp

/-- Every count fits in a word. -/
structure InWords (f : Footprint) : Prop where
  arrays : f.arrays < wordLimit
  cells : f.cells < wordLimit
  elements : f.elements < wordLimit

theorem InWords.left {f g : Footprint} (fits : (f + g).InWords) : f.InWords where
  arrays := Nat.lt_of_le_of_lt (Nat.le_add_right _ _) fits.arrays
  cells := Nat.lt_of_le_of_lt (Nat.le_add_right _ _) fits.cells
  elements := Nat.lt_of_le_of_lt (Nat.le_add_right _ _) fits.elements

theorem inWords_of_of? {s : Shape} {f : Footprint} (counted : of? s = some f)
    (nonempty : s ≠ []) : f.InWords := by
  obtain ⟨arrays, cells, elements⟩ := lt_of_of?_eq_some counted nonempty
  exact ⟨arrays, cells, elements⟩

/-- One more array is added if that leaves every count in a word. -/
theorem addArray?_of_inWords {f : Footprint} {length numbers : UInt64}
    (fits : (f + ⟨1, length.toNat + 1, numbers.toNat⟩).InWords) :
    f.addArray? length numbers = some (f + ⟨1, length.toNat + 1, numbers.toNat⟩) := by
  obtain ⟨arrays, cells, elements⟩ := fits
  simp only [arrays_add, cells_add, elements_add] at arrays cells elements
  have own : length.toNat + 1 < wordLimit := by omega
  simp only [addArray?, checked, arrays, own, cells, elements, if_true, Option.bind_eq_bind,
    Option.bind_some]
  rfl

end Footprint

namespace Tree

open Footprint

@[simp] theorem countFrom?_leaf (l : Leaf) (total : Footprint) :
    (leaf l).countFrom? total = total.addArray? l.length l.length := rfl

theorem countFrom?_interior (n : UInt64) (ts : List Tree) (total : Footprint) :
    (interior n ts).countFrom? total =
      (total.addArray? n 0).bind fun total =>
        ts.foldlM (fun total t => t.countFrom? total) total := by
  rw [countFrom?, fold_interior]
  simp only [List.foldlM_map]

/-- Trees that are counted one after the other, if the total fits in words. -/
theorem foldlM_countFrom? {ts : List Tree} {total : Footprint}
    (each : ∀ t ∈ ts, ∀ total : Footprint, (total + t.footprint).InWords →
      t.countFrom? total = some (total + t.footprint))
    (fits : (total + (ts.map footprint).sum).InWords) :
    ts.foldlM (fun total t => t.countFrom? total) total =
      some (total + (ts.map footprint).sum) := by
  induction ts generalizing total with
  | nil => rfl
  | cons t ts ih =>
    rw [List.map_cons, List.sum_cons, ← Footprint.add_assoc] at fits ⊢
    rw [List.foldlM_cons, each t List.mem_cons_self total fits.left]
    exact ih (fun u member => each u (List.mem_cons_of_mem _ member)) fits

/-- A walk over a tree adds its footprint, if the result fits in words. -/
theorem countFrom?_of_inWords {t : Tree} {total : Footprint}
    (fits : (total + t.footprint).InWords) : t.countFrom? total = some (total + t.footprint) := by
  induction t generalizing total with
  | leaf l => exact addArray?_of_inWords fits
  | interior n ts ih =>
    rw [footprint_interior, ← Footprint.add_assoc] at fits ⊢
    have own : total.addArray? n 0 = some (total + ⟨1, n.toNat + 1, 0⟩) :=
      addArray?_of_inWords fits.left
    rw [countFrom?_interior, own, Option.bind_some]
    refine foldlM_countFrom? ?_ fits
    intro t member total fits
    exact ih t member fits

/-- What a walk finds on a tree whose counts fit in words. -/
theorem countFrom?_zero_of_inWords {t : Tree} (fits : t.footprint.InWords) :
    t.countFrom? 0 = some t.footprint := by
  have run : t.countFrom? 0 = some (0 + t.footprint) :=
    countFrom?_of_inWords (by rwa [Footprint.zero_add])
  rw [run, Footprint.zero_add]

/-! ### Trees of a shape -/

/-- A tree with the shape `s` costs what `s` does, whatever its numbers are. -/
theorem footprint_of_conforms {t : Tree} {s : Shape} (sound : t.WellFormed)
    (fits : t.conforms s = true) : t.footprint = exact s := by
  refine conforms_rec (motive := fun t s => t.footprint = exact s) ?_ ?_ sound fits
  · intro l _
    rw [footprint_leaf, exact_cons]
    ext <;> simp
  · intro n ts inner _ count _ ih
    -- all elements cost the same, so their sum is a product
    have alike : ts.map footprint = List.replicate n.toNat (exact inner) := by
      refine List.eq_replicate_iff.2 ⟨by simpa using count, ?_⟩
      intro f member
      obtain ⟨t, part, rfl⟩ := List.mem_map.1 member
      exact ih t part
    rw [footprint_interior, alike, sum_replicate, exact_cons]
    ext <;> simp

theorem conforms_zeros {s : Shape} (nonempty : s ≠ []) : (zeros s).conforms s = true := by
  induction s using Shape.check.induct with
  | case1 => exact absurd rfl nonempty
  | case2 extent => simp [zeros_singleton]
  | case3 extent next inner ih =>
    have below := ih (by simp)
    rw [zeros_cons_cons, conforms_interior_cons]
    simp [List.all_replicate, below]

theorem count_of_conforms {t : Tree} {s : Shape} {f : Footprint} (sound : t.WellFormed)
    (fits : t.conforms s = true) (counted : of? s = some f) :
    t.footprint = f ∧ t.countFrom? 0 = some f := by
  have nonempty : s ≠ [] := by
    rintro rfl
    simp at fits
  have same : t.footprint = f := by
    rw [footprint_of_conforms sound fits, of?_eq_some counted nonempty]
  refine ⟨same, ?_⟩
  rw [countFrom?_zero_of_inWords (by rw [same]; exact inWords_of_of? counted nonempty), same]

/-- What is predicted for a shape is what a walk finds on every tree of that shape, and no
addition on the way leaves the range of a word.  This includes every new tree, and a tree
that a checked builder returns was always predicted. -/
theorem footprint_eq_predicted :
    (∀ (t : Tree) (s : Shape) (f : Footprint), t.WellFormed → t.conforms s = true →
      of? s = some f → t.footprint = f ∧ t.countFrom? 0 = some f) ∧
    (∀ (s : Shape) (t : Tree) (f : Footprint), build s = .ok t → of? s = some f →
      t.footprint = f ∧ t.countFrom? 0 = some f) ∧
    ∀ (limits : Limits) (request : List Int64) (t : Tree),
      (tryBuild limits request).result = .ok t →
        ∃ f, of? (Shape.reinterpret request) = some f ∧
          t.footprint = f ∧ t.countFrom? 0 = some f := by
  refine ⟨?_, ?_, ?_⟩
  · intro t s f sound fits counted
    exact count_of_conforms sound fits counted
  · intro s t f built counted
    obtain ⟨passed, rfl⟩ := build_eq_ok_iff.1 built
    have nonempty := Shape.ne_nil_of_check passed
    exact count_of_conforms (wellFormed_zeros nonempty) (conforms_zeros nonempty) counted
  · intro limits request t built
    obtain ⟨s, f, accepted, rfl⟩ := accept_of_tryBuild built
    have counted := (Limits.accept_eq_ok_iff.1 accepted).2.2.1
    obtain ⟨nonempty, shape, -, -⟩ := Limits.shape_of_accept accepted
    rw [shape] at nonempty counted ⊢
    exact ⟨f, counted,
      count_of_conforms (wellFormed_zeros nonempty) (conforms_zeros nonempty) counted⟩

/-- Two rows with numbers in them. -/
theorem footprint_eq_predicted_two_rows :
    let rows := interior 2 [.leaf ⟨[3, 5, 0, 7]⟩, .leaf ⟨[3, 0, 0, 1]⟩]
    rows.WellFormed ∧ rows.conforms [2, 3] = true ∧ of? [2, 3] = some ⟨3, 11, 6⟩ ∧
      rows.footprint = ⟨3, 11, 6⟩ ∧ rows.countFrom? 0 = some ⟨3, 11, 6⟩ := by
  intro rows
  have sound : rows.WellFormed := by
    simp [rows, Leaf.WellFormed]
  exact ⟨sound, rfl, rfl, footprint_eq_predicted.1 rows [2, 3] ⟨3, 11, 6⟩ sound rfl rfl⟩

end Tree

end ArrayLayout
