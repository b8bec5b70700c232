/-
Links between arrays in memory with sharing.

A reference to an array of the rank below can be written over any element of an array, also
one to an array that is an element already, of this array or of others.  Ranks still go down
along every path, so memory stays stratified and no cycle comes about.  What changes is the
array that was written, and with it every place that it is seen from.

* `Heap.Stratified.at?_of_follow?` — reading at the end of a path;
* `Heap.Stratified.store_link` — memory stays stratified;
* `Heap.Stratified.tree?_store_link` — the array itself has another sub-array;
* `Heap.Linked` — all that is true of memory after a link;
* `Heap.Stratified.linked_of_store` — it is true after every link.
-/
import ArrayLayout.Proofs.Stratified

namespace ArrayLayout

/-- A sub-array is replaced if it is there. -/
theorem Tree.getD_replaceAt?_singleton (n : UInt64) (ts : List Tree) (index : Nat) (new : Tree) :
    ((interior n ts).replaceAt? [index] new).getD (interior n ts) =
      interior n (ts.set index new) := by
  by_cases inside : index < ts.length
  · simp [replaceAt?, modify?, inside]
  · rw [List.set_eq_of_length_le (by omega)]
    simp [replaceAt?, modify?, inside]

namespace Heap

variable {h h' : Heap} {rank : Ref → Nat} {r s root a b : Ref} {n : UInt64}
  {payload : List Cell} {t part : Tree} {k index : Nat} {path : List Nat}

theorem isSome_block?_store (h : Heap) (r : Ref) (index : Nat) (c : Cell) (s : Ref) :
    ((h.store r index c).block? s).isSome = (h.block? s).isSome := by
  by_cases same : s = r
  · subst same
    cases block : h.block? s with
    | none => simp [store, block]
    | some cells => rw [block?_store_self index c block]; rfl
  · rw [block?_store_of_ne index c same]

/-- Elements stay elements as long as all blocks stay live. -/
theorem elementOf_of_live {c : Cell} (live : ∀ s, (h.block? s).isSome → (h'.block? s).isSome)
    (part : h.ElementOf rank k c) : h'.ElementOf rank k c := by
  match k with
  | 0 => cases part
  | 1 => exact part
  | k + 2 =>
    obtain ⟨s, rfl, there, order⟩ := part
    exact ⟨s, rfl, live s there, order⟩

namespace Stratified

theorem exists_rank_eq_succ (strat : h.Stratified rank) (live : (h.block? r).isSome) :
    ∃ k, rank r = k + 1 := by
  obtain ⟨cells, block⟩ := Option.isSome_iff_exists.1 live
  exact Nat.exists_eq_succ_of_ne_zero (Nat.ne_of_gt (strat.rank_pos r cells block))

/-- What is read at a place is what is read where the path to it leads. -/
theorem at?_of_follow? (strat : h.Stratified rank) (live : (h.block? r).isSome)
    (read : h.tree? (rank r) r = some t) (led : h.follow? r path = some s) :
    ∃ u, t.at? path = some u ∧ h.tree? (rank s) s = some u := by
  induction path generalizing r t with
  | nil =>
    obtain rfl : r = s := Option.some.inj led
    exact ⟨t, Tree.at?_nil t, read⟩
  | cons i rest ih =>
    obtain ⟨n, payload, s', block, within, element, live', lower, led⟩ := strat.exists_step live led
    obtain ⟨k, order⟩ := strat.exists_rank_eq_succ live'
    rw [tree?_of_block _ block within, ← lower, order] at read
    obtain ⟨ts, parts, rfl⟩ := Option.map_eq_some_iff.1 read
    obtain ⟨len, each⟩ := mapM_eq_some_iff.1 parts
    obtain ⟨bound, -⟩ := List.getElem?_eq_some_iff.1 element
    have child : ts[i]? = some ts[i] := List.getElem?_eq_getElem (len ▸ bound)
    have sub : h.tree? (rank s') s' = some ts[i] := by
      rw [order]
      exact each i _ _ element child
    rw [Tree.at?_interior_cons child]
    exact ih live' sub led

/-- A link keeps memory stratified. -/
theorem store_link (strat : h.Stratified rank) (block : h.block? a = some (.num n :: payload))
    (live : (h.block? b).isSome) (below : rank b + 1 = rank a) (index : Nat) :
    (h.store a (lengthCell + 1 + index) (.ref b)).Stratified rank := by
  -- an element of the old memory is one of the new memory, since all blocks are still there
  have keeps (k : Nat) (c : Cell) (part : h.ElementOf rank k c) :
      (h.store a (lengthCell + 1 + index) (.ref b)).ElementOf rank k c :=
    elementOf_of_live (fun s there => by rwa [isSome_block?_store]) part
  have blocks (r : Ref) (cells : List Cell)
      (found : (h.store a (lengthCell + 1 + index) (.ref b)).block? r = some cells) :
      (r = a ∧ cells = .num n :: payload.set index (.ref b)) ∨ h.block? r = some cells := by
    by_cases same : r = a
    · subst same
      rw [block?_store_payload block, Option.some_inj] at found
      exact .inl ⟨rfl, found.symm⟩
    · rw [block?_store_of_ne _ _ same] at found
      exact .inr found
  constructor
  · intro r cells found
    rcases blocks r cells found with ⟨rfl, rfl⟩ | old
    · obtain ⟨_, _, ⟨⟩, within⟩ := strat.starts r _ block
      exact ⟨n, _, rfl, by rwa [List.length_set]⟩
    · exact strat.starts r cells old
  · intro r cells found
    rcases blocks r cells found with ⟨rfl, -⟩ | old
    · exact strat.rank_pos r _ block
    · exact strat.rank_pos r cells old
  · intro r m elements found c inside
    rcases blocks r _ found with ⟨rfl, same⟩ | old
    · cases same
      rcases List.mem_or_eq_of_mem_set inside with old | rfl
      · exact keeps _ c (strat.elements r n payload block c old)
      · obtain ⟨k, order⟩ := strat.exists_rank_eq_succ live
        rw [← below, order]
        exact ⟨b, rfl, by rwa [isSome_block?_store], order⟩
    · exact keeps _ c (strat.elements r m elements old c inside)

/-- The array that a link was written to has another sub-array in that place. -/
theorem tree?_store_link (strat : h.Stratified rank)
    (block : h.block? a = some (.num n :: payload)) (live : (h.block? b).isSome)
    (below : rank b + 1 = rank a) (index : Nat) (linked : h.tree? (rank b) b = some part)
    (read : h.tree? (rank a) a = some t) :
    (h.store a (lengthCell + 1 + index) (.ref b)).tree? (rank a) a =
      some ((t.replaceAt? [index] part).getD t) := by
  obtain ⟨_, _, block', within⟩ := strat.exists_block? (by rw [block]; rfl)
  cases block.symm.trans block'
  obtain ⟨k, order⟩ := strat.exists_rank_eq_succ live
  -- the sub-arrays, the new one among them, are read as before
  have stays (s : Ref) (u : Tree) (there : (h.block? s).isSome) (lower : rank s = k + 1)
      (sub : h.tree? (k + 1) s = some u) :
      (h.store a (lengthCell + 1 + index) (.ref b)).tree? (k + 1) s = some u :=
    strat.tree?_of_rank_lt (fun s' => block?_store_of_ne _ _) there (by omega) sub
  rw [← below, order] at read ⊢
  rw [tree?_of_block _ block within] at read
  rw [tree?_of_block _ (block?_store_payload block index (.ref b)) (by simpa using within)]
  have old : (h.store a (lengthCell + 1 + index) (.ref b)).treeOf? (k + 2) n
      (payload.take n.toNat) = some t := by
    refine treeOf?_of_imp read ?_
    intro i s u element sub
    obtain ⟨there, lower⟩ := strat.of_element block element
    exact stays s u there (by omega) sub
  obtain ⟨ts, parts, rfl⟩ := Option.map_eq_some_iff.1 old
  have new : (Cell.ref b).ref?.bind
      ((h.store a (lengthCell + 1 + index) (.ref b)).tree? (k + 1)) = some part :=
    stays b part live order (by rwa [order] at linked)
  rw [treeOf?, List.take_set, mapM_set parts new, Tree.getD_replaceAt?_singleton, Option.map_some]

/-- An element in front of the length is there to be replaced. -/
theorem exists_replaceAt? (strat : h.Stratified rank)
    (block : h.block? a = some (.num n :: payload)) (deep : 1 < rank a) (inside : index < n.toNat)
    (read : h.tree? (rank a) a = some t) (new : Tree) :
    ∃ t', t.replaceAt? [index] new = some t' := by
  obtain ⟨_, _, block', within⟩ := strat.exists_block? (by rw [block]; rfl)
  cases block.symm.trans block'
  obtain ⟨k, order⟩ : ∃ k, rank a = k + 2 := ⟨rank a - 2, by omega⟩
  rw [order, tree?_of_block _ block within] at read
  obtain ⟨ts, parts, rfl⟩ := Option.map_eq_some_iff.1 read
  have count := (mapM_eq_some_iff.1 parts).1
  rw [List.length_take, Nat.min_eq_left within] at count
  have bound : index < ts.length := by omega
  exact ⟨.interior n (ts.set index new), by simp [Tree.replaceAt?, Tree.modify?, bound]⟩

end Stratified

/-- From `h` to `h'`, a reference to `b` was written over the element of `a` at `index`. -/
structure Linked (h h' : Heap) (rank : Ref → Nat) (a b : Ref) (index : Nat) : Prop where
  /-- No array has changed its rank. -/
  stratified : h'.Stratified rank
  /-- Arrays of lower rank than `a` are read as before, `b` among them. -/
  lower : ∀ s, (h.block? s).isSome → rank s < rank a →
    ∃ u, h.tree? (rank s) s = some u ∧ h'.tree? (rank s) s = some u
  /-- Whatever is read, at the places of `a` it has another sub-array, and nothing else has
  changed. -/
  shown : ∀ root, (h.block? root).isSome →
    ∃ t part, h.tree? (rank root) root = some t ∧ h.tree? (rank b) b = some part ∧
      h'.tree? (rank root) root =
        some (t.changeWhere (fun s => (s.replaceAt? [index] part).getD s) (h.leadsTo root a))
  /-- There is such a sub-array at every place of `a`. -/
  replaced : ∀ root path, (h.block? root).isSome → h.follow? root path = some a →
    ∃ t t' part s s', h.tree? (rank root) root = some t ∧ h.tree? (rank b) b = some part ∧
      h'.tree? (rank root) root = some t' ∧ t.at? path = some s ∧
      s.replaceAt? [index] part = some s' ∧ t'.at? path = some s'

namespace Stratified

/-- A reference to an array of the rank below is written over an element of an array.  Memory
stays stratified, the arrays of lower rank stay as they are, and the nested array at any root
is as before, except that at every place from which a path leads to the array the element is
what is read at that reference. -/
theorem linked_of_store (strat : h.Stratified rank)
    (block : h.block? a = some (.num n :: payload)) (live : (h.block? b).isSome)
    (below : rank b + 1 = rank a) (inside : index < n.toNat) :
    Linked h (h.store a (lengthCell + 1 + index) (.ref b)) rank a b index := by
  obtain ⟨part, linked⟩ := strat.exists_tree? live
  have others (s : Ref) (differ : s ≠ a) :
      (h.store a (lengthCell + 1 + index) (.ref b)).block? s = h.block? s :=
    block?_store_of_ne _ _ differ
  have shown (root : Ref) (t : Tree) (there : (h.block? root).isSome)
      (read : h.tree? (rank root) root = some t) :
      (h.store a (lengthCell + 1 + index) (.ref b)).tree? (rank root) root =
        some (t.changeWhere (fun s => (s.replaceAt? [index] part).getD s) (h.leadsTo root a)) :=
    strat.tree?_changeWhere others
      (fun u here => strat.tree?_store_link block live below index linked here) there read
  constructor
  case stratified => exact strat.store_link block live below index
  case lower =>
    intro s there lower
    obtain ⟨u, read⟩ := strat.exists_tree? there
    exact ⟨u, read, strat.tree?_of_rank_lt others there lower read⟩
  case shown =>
    intro root there
    obtain ⟨t, read⟩ := strat.exists_tree? there
    exact ⟨t, part, read, linked, shown root t there read⟩
  case replaced =>
    intro root path there led
    obtain ⟨t, read⟩ := strat.exists_tree? there
    obtain ⟨s, found, here⟩ := strat.at?_of_follow? there read led
    have deep : 1 < rank a := by
      obtain ⟨k, order⟩ := strat.exists_rank_eq_succ live
      omega
    obtain ⟨s', replaced⟩ := strat.exists_replaceAt? block deep inside here part
    refine ⟨t, _, part, s, s', read, linked, shown root t there read, found, replaced, ?_⟩
    rw [strat.at?_changeWhere there led, found, Option.map_some, replaced, Option.getD_some]

end Stratified

/-- Two planes that are the same array, with two rows that are the same array, and a row that
is not in use. -/
def sharedPlanes : Heap :=
  ⟨#[some [.num 2, .num 5, .num 6], some [.num 1, .num 9], some [.num 2, .ref ⟨0⟩, .ref ⟨0⟩],
    some [.num 2, .ref ⟨2⟩, .ref ⟨2⟩]]⟩

/-- The rank of its arrays. -/
def planesRank (r : Ref) : Nat := max 1 r.index

theorem stratified_sharedPlanes : sharedPlanes.Stratified planesRank := by
  have blocks (r : Ref) (cells : List Cell) (block : sharedPlanes.block? r = some cells) :
      (r = ⟨0⟩ ∧ cells = [.num 2, .num 5, .num 6]) ∨ (r = ⟨1⟩ ∧ cells = [.num 1, .num 9]) ∨
        (r = ⟨2⟩ ∧ cells = [.num 2, .ref ⟨0⟩, .ref ⟨0⟩]) ∨
          (r = ⟨3⟩ ∧ cells = [.num 2, .ref ⟨2⟩, .ref ⟨2⟩]) := by
    obtain ⟨i⟩ := r
    match i with
    | 0 => exact .inl ⟨rfl, (Option.some.inj block).symm⟩
    | 1 => exact .inr (.inl ⟨rfl, (Option.some.inj block).symm⟩)
    | 2 => exact .inr (.inr (.inl ⟨rfl, (Option.some.inj block).symm⟩))
    | 3 => exact .inr (.inr (.inr ⟨rfl, (Option.some.inj block).symm⟩))
    | i + 4 =>
      have bound : i + 4 < 4 := ref_lt_of_block? block
      omega
  constructor
  · intro r cells block
    obtain ⟨rfl, rfl⟩ | ⟨rfl, rfl⟩ | ⟨rfl, rfl⟩ | ⟨rfl, rfl⟩ := blocks r cells block
    · exact ⟨2, _, rfl, by decide⟩
    · exact ⟨1, _, rfl, by decide⟩
    · exact ⟨2, _, rfl, by decide⟩
    · exact ⟨2, _, rfl, by decide⟩
  · intro r cells _
    exact Nat.lt_of_lt_of_le Nat.one_pos (Nat.le_max_left 1 r.index)
  · intro r n payload block c part
    obtain ⟨rfl, same⟩ | ⟨rfl, same⟩ | ⟨rfl, same⟩ | ⟨rfl, same⟩ := blocks r _ block
    · cases same
      have number : c = .num 5 ∨ c = .num 6 := by simpa using part
      obtain rfl | rfl := number
      · exact ⟨5, rfl⟩
      · exact ⟨6, rfl⟩
    · cases same
      exact ⟨9, by simpa using part⟩
    · cases same
      exact ⟨⟨0⟩, by simpa using part, rfl, rfl⟩
    · cases same
      exact ⟨⟨2⟩, by simpa using part, rfl, rfl⟩

/-- The row that was not in use becomes the second row of the plane, and of both planes. -/
theorem Stratified.linked_sharedPlanes :
    sharedPlanes.Stratified planesRank ∧
      sharedPlanes.block? ⟨2⟩ = some [.num 2, .ref ⟨0⟩, .ref ⟨0⟩] ∧
      (sharedPlanes.block? ⟨1⟩).isSome ∧ planesRank ⟨1⟩ + 1 = planesRank ⟨2⟩ ∧
      1 < (2 : UInt64).toNat ∧
      (sharedPlanes.store ⟨2⟩ 2 (.ref ⟨1⟩)).Stratified planesRank ∧
      (sharedPlanes.store ⟨2⟩ 2 (.ref ⟨1⟩)).tree? 3 ⟨3⟩ =
        some (.interior 2 (List.replicate 2 (.interior 2 [.leaf ⟨[2, 5, 6]⟩, .leaf ⟨[1, 9]⟩]))) := by
  have block : sharedPlanes.block? ⟨2⟩ = some [.num 2, .ref ⟨0⟩, .ref ⟨0⟩] := rfl
  have live : (sharedPlanes.block? ⟨1⟩).isSome := rfl
  have below : planesRank ⟨1⟩ + 1 = planesRank ⟨2⟩ := rfl
  have inside : 1 < (2 : UInt64).toNat := by decide
  have linked := stratified_sharedPlanes.linked_of_store block live below inside
  obtain ⟨t, part, read, row, shown⟩ := linked.shown ⟨3⟩ rfl
  have old : t = .interior 2 (List.replicate 2 (.interior 2
      [.leaf ⟨[2, 5, 6]⟩, .leaf ⟨[2, 5, 6]⟩])) :=
    Option.some.inj (read.symm.trans rfl)
  have new : part = .leaf ⟨[1, 9]⟩ := Option.some.inj (row.symm.trans rfl)
  subst old new
  exact ⟨stratified_sharedPlanes, block, live, below, inside, linked.stratified, shown⟩

end Heap

end ArrayLayout
