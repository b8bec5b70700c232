/-
Giving back a nested array that stands in memory in order.

The blocks of a tree are one stretch.  Giving it back frees the stretches of the elements one
after another, and then the array itself, which is in front of them.  While one stretch is
freed, nothing outside of it is touched but the array around it, and that one is still there.
So what is known of each element adds up to what is known of the whole.

* `Heap.stretch` — the references from one index up to another;
* `Heap.Released` — memory and log after all arrays of a set were given back;
* `Heap.Released.append` — giving back two sets that are apart, one after the other;
* `Heap.exists_releaseElements?` — giving back the elements of an array;
* `Heap.Holds.exists_releaseLog?` — a tree that stands in memory in order can be given back.
-/
import ArrayLayout.Proofs.Accesses
import ArrayLayout.Proofs.Freshness

namespace ArrayLayout

open ArrayLayout.Tree

namespace Heap

variable {h h₁ h₂ h' : Heap} {outer sub r : Ref} {bytes : Nat} {log log' : List Access}

/-! ### Stretches -/

/-- The references from index `low` on, up to but without index `high`. -/
def stretch (low high : Nat) : Set Ref := {r | low ≤ r.index ∧ r.index < high}

theorem mem_stretch {low high : Nat} : r ∈ stretch low high ↔ low ≤ r.index ∧ r.index < high :=
  Iff.rfl

theorem stretch_self (n : Nat) : stretch n n = ∅ := by
  ext r
  simp only [mem_stretch, Set.mem_empty_iff_false, iff_false]
  omega

theorem stretch_succ (n : Nat) : stretch n (n + 1) = {⟨n⟩} := by
  ext ⟨k⟩
  rw [mem_stretch, Set.mem_singleton_iff, Ref.mk.injEq]
  show n ≤ k ∧ k < n + 1 ↔ k = n
  omega

theorem stretch_union {low mid high : Nat} (below : low ≤ mid) (above : mid ≤ high) :
    stretch low mid ∪ stretch mid high = stretch low high := by
  ext r
  rw [Set.mem_union, mem_stretch, mem_stretch, mem_stretch]
  omega

theorem not_mem_stretch_of_mem {low mid high : Nat} (first : r ∈ stretch low mid) :
    r ∉ stretch mid high :=
  fun second => Nat.not_lt_of_le second.1 first.2

/-! ### What is known after giving back -/

/-- The arrays of a set were given back, which took memory from `h` to `h'`.  Besides them, only
the array around them was touched. -/
structure Released (h h' : Heap) (outer : Ref) (arrays : Set Ref) (log : List Access) : Prop where
  -- nothing is touched that was freed before
  ordered : log.Pairwise Access.CanPrecede
  inside : ∀ x ∈ log, x.array = outer ∨ x.array ∈ arrays
  -- each array of the set is freed, as the block that it is, and no other
  frees : ∀ r bytes, .free r bytes ∈ log ↔ r ∈ arrays ∧ bytes = cellBytes * h.blockCells r
  gone : ∀ r ∈ arrays, h'.block? r = none
  frame : ∀ r ∉ arrays, h'.block? r = h.block? r

namespace Released

variable {arrays arrays' : Set Ref}

theorem nil (h : Heap) (outer : Ref) : Released h h outer ∅ [] := by
  constructor <;> simp

/-- An access that is no `free` can come before anything. -/
theorem read (given : Released h h' outer arrays log) :
    Released h h' outer arrays (.read outer :: log) where
  ordered := by
    refine List.pairwise_cons.2 ⟨fun y _ bytes same => ?_, given.ordered⟩
    cases same
  inside := List.forall_mem_cons.2 ⟨.inl rfl, given.inside⟩
  frees := by simpa using given.frees
  gone := given.gone
  frame := given.frame

/-- For the array around a nested array, there is nothing else to know. -/
theorem around (given : Released h h' sub arrays log) (member : sub ∈ arrays) (outer : Ref) :
    Released h h' outer arrays log where
  ordered := given.ordered
  inside := by
    intro x logged
    rcases given.inside x logged with same | part
    · exact .inr (same ▸ member)
    · exact .inr part
  frees := given.frees
  gone := given.gone
  frame := given.frame

/-- Two sets that are apart are given back one after the other, while the array around them
stays. -/
theorem append (first : Released h h₁ outer arrays log)
    (second : Released h₁ h₂ outer arrays' log') (apart : ∀ r ∈ arrays, r ∉ arrays')
    (stays : outer ∉ arrays) : Released h h₂ outer (arrays ∪ arrays') (log ++ log') := by
  constructor
  case ordered =>
    refine List.pairwise_append.2 ⟨first.ordered, second.ordered, ?_⟩
    -- what the first part frees is in the first set, and the second part stays out of it
    rintro x before y after bytes rfl
    obtain ⟨freed, -⟩ := (first.frees y.array bytes).1 before
    rcases second.inside y after with same | part
    · exact stays (same ▸ freed)
    · exact apart _ freed part
  case inside =>
    intro x logged
    rcases List.mem_append.1 logged with before | after
    · exact (first.inside x before).imp id .inl
    · exact (second.inside x after).imp id .inr
  case frees =>
    intro r bytes
    rw [List.mem_append, first.frees, second.frees, Set.mem_union, or_and_right]
    refine or_congr Iff.rfl (and_congr_right fun part => ?_)
    rw [blockCells, first.frame r fun freed => apart r freed part, blockCells]
  case gone =>
    intro r part
    by_cases later : r ∈ arrays'
    · exact second.gone r later
    · rw [second.frame r later]
      exact first.gone r (part.resolve_right later)
  case frame =>
    intro r out
    rw [Set.mem_union, not_or] at out
    rw [second.frame r out.2, first.frame r out.1]

end Released

theorem exists_free? {cells : List Cell} (live : h.block? r = some cells)
    (size : bytes = cellBytes * cells.length) : ∃ h', h.free? r bytes = some h' := by
  rw [free?, live]
  exact ⟨_, if_pos size⟩

theorem eq_of_free? (freed : h.free? r bytes = some h') : bytes = cellBytes * h.blockCells r := by
  unfold free? at freed
  split at freed
  · cases freed
  · rename_i cells live
    split at freed
    · rename_i size
      rw [size, blockCells, live, Option.getD_some]
    · cases freed

/-- Freeing an array gives that array back. -/
theorem released_of_free? (freed : h.free? r bytes = some h') :
    Released h h' r {r} [.free r bytes] where
  ordered := List.pairwise_singleton ..
  inside := by simp [Access.array]
  frees := by
    intro s size
    rw [List.mem_singleton, Access.free.injEq, Set.mem_singleton_iff]
    refine and_congr_right ?_
    rintro rfl
    rw [eq_of_free? freed]
  gone := by
    rintro s rfl
    exact block?_free?_self freed
  frame := fun s other => block?_free?_of_ne freed other

/-! ### Trees -/

/-- The elements of an array that stands in memory in order are given back one after another, if
each of them can be given back by itself. -/
theorem exists_releaseElements? {release : Ref → Heap → Option (List Access × Heap)}
    {n : UInt64} {ts : List Tree} {base start count : Nat}
    (each : ∀ t ∈ ts, ∀ (h : Heap) (base : Nat), h.Holds t base → ∃ log h',
      release ⟨base⟩ h = some (log, h') ∧ Released h h' ⟨base⟩ (stretch base (base + t.size)) log)
    (block : h.block? ⟨base⟩ = some (.num n :: (subRefs ts base).map Cell.ref))
    (len : ts.length = n.toNat) (all : start + count = ts.length)
    (held : ∀ i t, start ≤ i → ts[i]? = some t → h.Holds t (base + 1 + before ts i)) :
    ∃ log h', releaseElements? release ⟨base⟩ start count h = some (log, h') ∧
      Released h h' ⟨base⟩
        (stretch (base + 1 + before ts start) (base + 1 + before ts ts.length)) log := by
  -- the elements that are left still stand, and so does the array
  induction count generalizing h start with
  | zero =>
    obtain rfl : start = ts.length := all
    rw [stretch_self]
    exact ⟨[], h, rfl, .nil h _⟩
  | succ count ih =>
    have bound : start < ts.length := by omega
    have child : ts[start]? = some ts[start] := List.getElem?_eq_getElem bound
    have cell : ((subRefs ts base).map Cell.ref)[start]? =
        some (.ref ⟨base + 1 + before ts start⟩) := by
      rw [List.getElem?_map, getElem?_subRefs base bound, Option.map_some]
    have element : h.follow? ⟨base⟩ [start] = some ⟨base + 1 + before ts start⟩ :=
      follow?_singleton (read_block block (by simp [len])).2.2 cell
    obtain ⟨below, h₁, first, given⟩ :=
      each _ (List.getElem_mem bound) h _ (held start _ (Nat.le_refl _) child)
    rw [Nat.add_assoc (base + 1), ← before_succ child] at given
    have pos := before_succ child ▸ Nat.lt_add_of_pos_right (size_pos ts[start])
    have stays : (⟨base⟩ : Ref) ∉
        stretch (base + 1 + before ts start) (base + 1 + before ts (start + 1)) := by
      rw [mem_stretch]
      show ¬(base + 1 + before ts start ≤ base ∧ _)
      omega
    have later : ∀ i t, start + 1 ≤ i → ts[i]? = some t → h₁.Holds t (base + 1 + before ts i) := by
      intro i t after there
      refine (held i t (by omega) there).frame fun k _ => given.frame _ ?_
      have apart := before_mono ts after
      rw [mem_stretch]
      show ¬(_ ∧ base + 1 + before ts i + k < base + 1 + before ts (start + 1))
      omega
    obtain ⟨rest, h₂, others, given'⟩ :=
      ih ((given.frame _ stays).trans block) (by omega) later
    refine ⟨.read ⟨base⟩ :: below ++ rest, h₂, ?_, ?_⟩
    · rw [releaseElements?, element]
      simp [first, others]
    · rw [← stretch_union (Nat.add_le_add_left (Nat.le_of_lt pos) _)
        (Nat.add_le_add_left (before_mono ts bound) _)]
      refine (given.around ?_ ⟨base⟩).read.append given' (fun r => not_mem_stretch_of_mem) stays
      rw [mem_stretch]
      exact ⟨Nat.le_refl _, Nat.add_lt_add_left pos _⟩

/-- A tree that stands in memory in order can be given back, which frees its stretch and changes
nothing else. -/
theorem Holds.exists_releaseLog? {t : Tree} {base rank : Nat} (held : h.Holds t base)
    (sound : t.WellFormed) (even : t.HasRank rank) :
    ∃ log h', releaseLog? rank ⟨base⟩ h = some (log, h') ∧
      Released h h' ⟨base⟩ (stretch base (base + t.size)) log := by
  induction t generalizing h base rank with
  | leaf l =>
    obtain rfl := (hasRank_leaf l rank).1 even
    have length := (held.read_leaf sound).1
    cases held with
    | leaf block =>
      obtain ⟨h', freed⟩ := exists_free? block
        (by rw [List.length_map, (wellFormed_leaf l).1 sound])
      refine ⟨[.read ⟨base⟩, .free ⟨base⟩ (cellBytes * (l.length.toNat + 1))], h', ?_, ?_⟩
      · rw [releaseLog?, length]
        simp [freeArray?, freed]
      · rw [size_leaf, stretch_succ]
        exact (released_of_free? freed).read
  | interior n ts ih =>
    obtain ⟨count, sounds⟩ := (wellFormed_interior n ts).1 sound
    obtain ⟨rank, rfl, parts⟩ := exists_rank_of_interior even
    have length := (held.read_interior count).1
    cases held with
    | interior block subs =>
      obtain ⟨below, rest, elements, given⟩ := exists_releaseElements?
        (fun t member h base held => ih t member held (sounds t member) (parts t member))
        block count (Nat.zero_add _) fun i t _ child => subs i t child
      rw [before_zero, before_length, Nat.add_zero, Nat.add_assoc, ← size_interior n] at given
      have stays : (⟨base⟩ : Ref) ∉ stretch (base + 1) (base + (Tree.interior n ts).size) := by
        rw [mem_stretch]
        exact fun part => Nat.not_succ_le_self base part.1
      obtain ⟨h', freed⟩ := exists_free? ((given.frame _ stays).trans block)
        (by rw [List.length_cons, List.length_map, length_subRefs, count])
      refine ⟨.read ⟨base⟩ :: below ++ [.free ⟨base⟩ (cellBytes * (n.toNat + 1))], h', ?_, ?_⟩
      · rw [count] at elements
        rw [releaseLog?, length]
        simp [elements, freeArray?, freed]
      · rw [← stretch_union (Nat.le_succ base) (Nat.add_le_add_left (size_pos _) base),
          stretch_succ, Set.union_comm]
        refine (given.append (released_of_free? freed) ?_ stays).read
        rintro r part rfl
        exact stays part

end Heap

end ArrayLayout
