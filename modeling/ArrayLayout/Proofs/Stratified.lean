/-
Writes into memory with sharing.

In stratified memory every array has one rank, and its elements are arrays of the rank
below, or numbers.  One array may be an element of many others, so what is written into it
shows wherever a path leads to it.  Ranks go down along paths: no path leads from an array
back to it, so nothing is changed twice.

* `Heap.Stratified` — memory in which every array has one rank;
* `Heap.Stratified.rank_follow?` — ranks along a path;
* `Heap.Stratified.exists_tree?` — all of it can be read;
* `Heap.Stratified.tree?_changeWhere` — one array changes, and with it all places that it is
  seen from;
* `Heap.Stratified.at?_changeWhere` — the array is found changed at such a place;
* `Heap.Stratified.tree?_of_store` — what is read after a number or a length is stored.
-/
import ArrayLayout.Proofs.Positions
import ArrayLayout.Proofs.Readback

namespace ArrayLayout

/-- A number is replaced in a leaf if it is there. -/
theorem Tree.getD_set?_singleton (n : UInt64) (ns : List UInt64) (index : Nat) (v : UInt64) :
    ((leaf ⟨n :: ns⟩).set? [index] v).getD (leaf ⟨n :: ns⟩) = leaf ⟨n :: ns.set index v⟩ := by
  have step : (leaf ⟨n :: ns⟩).set? [index] v = ((Leaf.mk (n :: ns)).set? index v).map leaf := rfl
  rw [step, Leaf.set?, Leaf.payload_mk]
  by_cases inside : index < ns.length
  · rw [if_pos inside, lengthCell, Nat.add_comm, List.set_cons_succ]
    rfl
  · rw [if_neg inside, List.set_eq_of_length_le (by omega)]
    rfl

namespace Heap

/-- What an array of `k` dimensions may have as an element: a number if it is innermost, and
otherwise a reference to an array with one dimension less. -/
def ElementOf (h : Heap) (rank : Ref → Nat) : (k : Nat) → Cell → Prop
  | 0, _ => False
  | 1, c => ∃ v, c = .num v
  | k + 2, c => ∃ s, c = .ref s ∧ (h.block? s).isSome ∧ rank s = k + 1

/-- Every array has one rank.  It starts with a length that is at most the number of cells
after it, and all these cells are elements of that rank, also those behind the length. -/
structure Stratified (h : Heap) (rank : Ref → Nat) : Prop where
  starts : ∀ r cells, h.block? r = some cells →
    ∃ n payload, cells = .num n :: payload ∧ n.toNat ≤ payload.length
  rank_pos : ∀ r cells, h.block? r = some cells → 0 < rank r
  elements : ∀ r n payload, h.block? r = some (.num n :: payload) →
    ∀ c ∈ payload, h.ElementOf rank (rank r) c

/-- Whether a path leads to an array. -/
def leadsTo (h : Heap) (root a : Ref) (path : List Nat) : Bool := h.follow? root path == some a

variable {h h' : Heap} {rank : Ref → Nat} {r s root a : Ref} {n m : UInt64}
  {payload elements : List Cell} {t : Tree} {k : Nat}

theorem elementOf_ref (part : h.ElementOf rank k (.ref s)) :
    (h.block? s).isSome ∧ rank s + 1 = k := by
  match k with
  | 0 => cases part
  | 1 =>
    obtain ⟨v, number⟩ := part
    cases number
  | k + 2 =>
    obtain ⟨s', same, live, rank⟩ := part
    cases same
    exact ⟨live, by omega⟩

theorem block?_store_payload (block : h.block? a = some (.num n :: payload)) (index : Nat)
    (c : Cell) :
    (h.store a (lengthCell + 1 + index) c).block? a = some (.num n :: payload.set index c) := by
  rw [block?_store_self _ _ block, lengthCell, Nat.add_comm, List.set_cons_succ]

theorem block?_store_length (block : h.block? a = some (.num n :: payload)) (m : UInt64) :
    (h.store a lengthCell (.num m)).block? a = some (.num m :: payload) :=
  block?_store_self _ _ block

/-- A length that is stored back is as if nothing had been stored. -/
theorem tree?_store_length_back (block : h.block? a = some (.num n :: payload)) (m : UInt64)
    (read : h.tree? k r = some t) :
    ((h.store a lengthCell (.num m)).store a lengthCell (.num n)).tree? k r = some t := by
  refine tree?_of_extends ?_ read
  intro s cells live
  by_cases same : s = a
  · subst same
    rw [block?_store_length (block?_store_length block m) n, ← block, live]
  · rw [block?_store_of_ne _ _ same, block?_store_of_ne _ _ same, live]

namespace Stratified

theorem exists_block? (strat : h.Stratified rank) (live : (h.block? r).isSome) :
    ∃ n payload, h.block? r = some (.num n :: payload) ∧ n.toNat ≤ payload.length := by
  obtain ⟨cells, block⟩ := Option.isSome_iff_exists.1 live
  obtain ⟨n, payload, rfl, within⟩ := strat.starts r cells block
  exact ⟨n, payload, block, within⟩

/-- What an array refers to, in front of its length or behind it, is an array of the rank
below. -/
theorem of_element (strat : h.Stratified rank) (block : h.block? r = some (.num n :: payload))
    {i count : Nat} (element : (payload.take count)[i]? = some (.ref s)) :
    (h.block? s).isSome ∧ rank s + 1 = rank r := by
  have inside := List.mem_of_mem_take (List.mem_of_getElem? element)
  exact elementOf_ref (strat.elements r n payload block _ inside)

/-! ### Ranks along paths -/

/-- A path that starts with an index goes on from the array that this element refers to. -/
theorem exists_step (strat : h.Stratified rank) {i : Nat} {rest : List Nat}
    (live : (h.block? r).isSome) (led : h.follow? r (i :: rest) = some s) :
    ∃ n payload next, h.block? r = some (.num n :: payload) ∧ n.toNat ≤ payload.length ∧
      (payload.take n.toNat)[i]? = some (.ref next) ∧ (h.block? next).isSome ∧
      rank next + 1 = rank r ∧ h.follow? next rest = some s := by
  obtain ⟨n, payload, block, within⟩ := strat.exists_block? live
  rw [follow?_cons, (read_of_block block within).2.2, Option.bind_some,
    Option.bind_eq_some_iff] at led
  obtain ⟨c, element, led⟩ := led
  obtain ⟨next, ref, led⟩ := Option.bind_eq_some_iff.1 led
  obtain rfl := eq_of_ref? ref
  obtain ⟨live', lower⟩ := strat.of_element block element
  exact ⟨n, payload, next, block, within, element, live', lower, led⟩

theorem rank_follow? (strat : h.Stratified rank) {path : List Nat}
    (live : (h.block? r).isSome) (led : h.follow? r path = some s) :
    (h.block? s).isSome ∧ rank s + path.length = rank r := by
  induction path generalizing r with
  | nil =>
    obtain rfl : r = s := Option.some.inj led
    exact ⟨live, rfl⟩
  | cons i rest ih =>
    obtain ⟨_, _, s', -, -, -, live', below, led⟩ := strat.exists_step live led
    obtain ⟨there, sum⟩ := ih live' led
    refine ⟨there, ?_⟩
    rw [List.length_cons]
    omega

/-- An array is only seen from itself and from arrays of higher rank. -/
theorem tree?_of_rank_lt (strat : h.Stratified rank)
    (others : ∀ s, s ≠ a → h'.block? s = h.block? s) (live : (h.block? s).isSome)
    (lower : rank s < rank a) (read : h.tree? k s = some t) : h'.tree? k s = some t := by
  refine tree?_of_follow? ?_ read
  intro path s' cells led block
  rw [others s' ?_, block]
  rintro rfl
  have sum := (strat.rank_follow? live led).2
  omega

/-! ### Reading -/

theorem exists_treeOf? (rank : Ref → Nat) (n : UInt64) (pos : 0 < k)
    (all : ∀ c ∈ elements, h.ElementOf rank k c)
    (below : ∀ s, (h.block? s).isSome → rank s + 1 = k → ∃ t, h.tree? (rank s) s = some t) :
    ∃ t, h.treeOf? k n elements = some t := by
  match k with
  | 0 => omega
  | 1 =>
    have numbers : ∃ ns, elements.mapM Cell.num? = some ns := by
      refine exists_mapM_eq_some ?_
      intro c part
      obtain ⟨v, rfl⟩ := all c part
      exact ⟨v, rfl⟩
    obtain ⟨ns, read⟩ := numbers
    exact ⟨_, by rw [treeOf?, read, Option.map_some]⟩
  | k + 2 =>
    have subs : ∃ ts, elements.mapM (fun c : Cell => c.ref?.bind (h.tree? (k + 1))) = some ts := by
      refine exists_mapM_eq_some ?_
      intro c part
      obtain ⟨s, rfl, live, order⟩ := all c part
      obtain ⟨t, read⟩ := below s live (by omega)
      exact ⟨t, by rwa [order] at read⟩
    obtain ⟨ts, read⟩ := subs
    exact ⟨_, by rw [treeOf?, read, Option.map_some]⟩

theorem exists_tree? (strat : h.Stratified rank) (live : (h.block? r).isSome) :
    ∃ t, h.tree? (rank r) r = some t := by
  generalize order : rank r = k
  induction k generalizing r with
  | zero =>
    obtain ⟨cells, block⟩ := Option.isSome_iff_exists.1 live
    have pos := strat.rank_pos r cells block
    omega
  | succ k ih =>
    obtain ⟨n, payload, block, within⟩ := strat.exists_block? live
    rw [tree?_of_block (k + 1) block within]
    refine exists_treeOf? rank n (by omega) ?_ ?_
    · intro c part
      rw [← order]
      exact strat.elements r n payload block c (List.mem_of_mem_take part)
    · intro s live below
      have order : rank s = k := by omega
      rw [order]
      exact ih live order

/-- An array changes from one memory to another, and no other block does.  Then a nested array
changes at the places from which a path leads to that array, and at no others. -/
theorem tree?_changeWhere (strat : h.Stratified rank) {change : Tree → Tree}
    (others : ∀ s, s ≠ a → h'.block? s = h.block? s)
    (here : ∀ t, h.tree? (rank a) a = some t → h'.tree? (rank a) a = some (change t))
    (live : (h.block? root).isSome) (read : h.tree? (rank root) root = some t) :
    h'.tree? (rank root) root = some (t.changeWhere change (h.leadsTo root a)) := by
  generalize order : rank root = k at read ⊢
  induction k generalizing root t with
  | zero => cases read
  | succ k ih =>
    by_cases same : root = a
    · subst same
      have below (i : Nat) (path : List Nat) : h.leadsTo root root (i :: path) = false := by
        -- a path back to the array would have to be empty, as ranks go down along it
        refine beq_false_of_ne ?_
        intro led
        have sum := (strat.rank_follow? live led).2
        rw [List.length_cons] at sum
        omega
      rw [Tree.changeWhere_of_root (by simp [leadsTo]) below]
      rw [← order] at read ⊢
      exact here t read
    · have start : h.leadsTo root a [] = false := by
        simpa [leadsTo] using same
      obtain ⟨n, payload, block, within⟩ := strat.exists_block? live
      rw [tree?_of_block (k + 1) block within] at read
      rw [tree?_of_block (k + 1) ((others root same).trans block) within]
      match k with
      | 0 =>
        obtain ⟨ns, numbers, rfl⟩ := Option.map_eq_some_iff.1 read
        rw [Tree.changeWhere_leaf, start, if_neg Bool.false_ne_true]
        exact read
      | k + 1 =>
        obtain ⟨ts, -, rfl⟩ := Option.map_eq_some_iff.1 read
        rw [Tree.changeWhere_interior, start]
        refine treeOf?_mapIdx read ?_
        intro i s u element sub
        obtain ⟨live', lower⟩ := strat.of_element block element
        -- the places below an element are those of the array that start with its index
        have places : h.leadsTo s a = fun path => h.leadsTo root a (i :: path) := by
          funext path
          rw [leadsTo, leadsTo, follow?_of_block block within element]
        rw [← places]
        exact ih live' (by omega) sub

/-- At a place from which a path leads to the array, the changed array is found. -/
theorem at?_changeWhere (strat : h.Stratified rank) {path : List Nat} {change : Tree → Tree}
    (live : (h.block? root).isSome) (led : h.follow? root path = some a) :
    (t.changeWhere change (h.leadsTo root a)).at? path = (t.at? path).map change := by
  -- paths from one root to one array are of one length, so none is a part of another
  have level (p : List Nat) (hit : h.leadsTo root a p = true) : p.length = path.length := by
    have one := (strat.rank_follow? live led).2
    have two := (strat.rank_follow? live (eq_of_beq hit)).2
    omega
  have elsewhere (p : List Nat) (longer : p.length ≠ path.length) : h.leadsTo root a p = false :=
    Bool.eq_false_iff.2 fun hit => longer (level p hit)
  rw [Tree.at?_changeWhere]
  · refine congrArg (fun f => (t.at? path).map f) (funext fun s => ?_)
    refine Tree.changeWhere_of_root ?_ ?_
    · simp [leadsTo, led]
    · intro i q
      exact elsewhere _ (by simp)
  · intro p q split rest
    have pos := List.length_pos_iff.2 rest
    exact elsewhere p (by rw [split, List.length_append]; omega)

/-! ### Writes -/

/-- A number is stored into an array of numbers.  Behind its length it is not seen. -/
theorem tree?_store_number (strat : h.Stratified rank)
    (block : h.block? a = some (.num n :: payload)) (innermost : rank a = 1) (index : Nat)
    (v : UInt64) (read : h.tree? (rank a) a = some t) :
    (h.store a (lengthCell + 1 + index) (.num v)).tree? (rank a) a =
      some ((t.set? [index] v).getD t) := by
  obtain ⟨n', payload', block', within⟩ := strat.exists_block? (by rw [block]; rfl)
  cases block.symm.trans block'
  rw [innermost, tree?_of_block 1 block within] at read
  rw [innermost,
    tree?_of_block 1 (block?_store_payload block index (.num v)) (by simpa using within)]
  obtain ⟨ns, numbers, rfl⟩ := Option.map_eq_some_iff.1 read
  rw [treeOf?, List.take_set, mapM_set numbers (rfl : (Cell.num v).num? = some v),
    Tree.getD_set?_singleton, Option.map_some]

/-- Another length is stored.  Then the array has that many of its elements, also of those
that were behind the old length. -/
theorem tree?_store_length (strat : h.Stratified rank)
    (block : h.block? a = some (.num n :: payload)) (within : m.toNat ≤ payload.length) :
    ∃ new, h.treeOf? (rank a) m (payload.take m.toNat) = some new ∧
      (h.store a lengthCell (.num m)).tree? (rank a) a = some new := by
  have pos := strat.rank_pos a _ block
  have made : ∃ new, h.treeOf? (rank a) m (payload.take m.toNat) = some new := by
    refine exists_treeOf? rank m pos ?_ fun s live _ => strat.exists_tree? live
    intro c part
    exact strat.elements a n payload block c (List.mem_of_mem_take part)
  obtain ⟨new, made⟩ := made
  refine ⟨new, made, ?_⟩
  rw [tree?_of_block (rank a) (block?_store_length block m) within]
  obtain ⟨k, order⟩ : ∃ k, rank a = k + 1 := ⟨rank a - 1, by omega⟩
  rw [order] at made ⊢
  refine treeOf?_of_imp made ?_
  intro i s u element sub
  obtain ⟨live, lower⟩ := strat.of_element block element
  exact strat.tree?_of_rank_lt (fun s' => block?_store_of_ne _ _) live (by omega) sub

/-- What is read from stratified memory after a number was stored into an array of numbers, or
a length into any array.  The nested array at a root is as before, except that at every place
from which a path leads to the array the number is replaced, or the array has the first `m` of
its elements.  Storing the old length again brings back what was read before. -/
theorem tree?_of_store (strat : h.Stratified rank) (live : (h.block? root).isSome)
    (block : h.block? a = some (.num n :: payload)) :
    ∃ t, h.tree? (rank root) root = some t ∧
      (rank a = 1 → ∀ index v, index < payload.length →
        (h.store a (lengthCell + 1 + index) (.num v)).tree? (rank root) root =
          some (t.changeWhere (fun s => (s.set? [index] v).getD s) (h.leadsTo root a))) ∧
      ∀ m : UInt64, m.toNat ≤ payload.length →
        ∃ new, h.treeOf? (rank a) m (payload.take m.toNat) = some new ∧
          (h.store a lengthCell (.num m)).tree? (rank root) root =
            some (t.changeWhere (fun _ => new) (h.leadsTo root a)) ∧
          ((h.store a lengthCell (.num m)).store a lengthCell (.num n)).tree? (rank root) root =
            some t := by
  obtain ⟨t, read⟩ := strat.exists_tree? live
  refine ⟨t, read, ?_, ?_⟩
  · intro innermost index v _
    refine strat.tree?_changeWhere (fun s => block?_store_of_ne _ _) ?_ live read
    intro u here
    exact strat.tree?_store_number block innermost index v here
  · intro m within
    obtain ⟨new, made, here⟩ := strat.tree?_store_length block within
    refine ⟨new, made, ?_, tree?_store_length_back block m read⟩
    exact strat.tree?_changeWhere (fun s => block?_store_of_ne _ _) (fun _ _ => here) live read

end Stratified

/-- Two rows that are the same array.  It has room for three numbers, and shows two. -/
def sharedRows : Heap :=
  ⟨#[some [.num 2, .num 5, .num 6, .num 7], some [.num 2, .ref ⟨0⟩, .ref ⟨0⟩]]⟩

/-- The rank of its arrays. -/
def sharedRank (r : Ref) : Nat := r.index + 1

theorem stratified_sharedRows : sharedRows.Stratified sharedRank := by
  have blocks (r : Ref) (cells : List Cell) (block : sharedRows.block? r = some cells) :
      (r = ⟨0⟩ ∧ cells = [.num 2, .num 5, .num 6, .num 7]) ∨
        (r = ⟨1⟩ ∧ cells = [.num 2, .ref ⟨0⟩, .ref ⟨0⟩]) := by
    obtain ⟨i⟩ := r
    match i with
    | 0 => exact .inl ⟨rfl, (Option.some.inj block).symm⟩
    | 1 => exact .inr ⟨rfl, (Option.some.inj block).symm⟩
    | i + 2 =>
      have bound : i + 2 < 2 := ref_lt_of_block? block
      omega
  constructor
  · intro r cells block
    obtain ⟨rfl, rfl⟩ | ⟨rfl, rfl⟩ := blocks r cells block
    · exact ⟨2, _, rfl, by decide⟩
    · exact ⟨2, _, rfl, by decide⟩
  · intro r cells _
    exact Nat.succ_pos r.index
  · intro r n payload block c part
    obtain ⟨rfl, same⟩ | ⟨rfl, same⟩ := blocks r _ block
    · cases same
      have number : c = .num 5 ∨ c = .num 6 ∨ c = .num 7 := by simpa using part
      obtain rfl | rfl | rfl := number
      · exact ⟨5, rfl⟩
      · exact ⟨6, rfl⟩
      · exact ⟨7, rfl⟩
    · cases same
      exact ⟨⟨0⟩, by simpa using part, rfl, rfl⟩

/-- A number is stored into the row, and then a length: both show in both places. -/
theorem Stratified.tree?_of_store_sharedRows :
    sharedRows.Stratified sharedRank ∧ (sharedRows.block? ⟨1⟩).isSome ∧
      sharedRows.block? ⟨0⟩ = some [.num 2, .num 5, .num 6, .num 7] ∧
      (sharedRows.store ⟨0⟩ 1 (.num 9)).tree? 2 ⟨1⟩ =
        some (.interior 2 [.leaf ⟨[2, 9, 6]⟩, .leaf ⟨[2, 9, 6]⟩]) ∧
      (sharedRows.store ⟨0⟩ 0 (.num 3)).tree? 2 ⟨1⟩ =
        some (.interior 2 [.leaf ⟨[3, 5, 6, 7]⟩, .leaf ⟨[3, 5, 6, 7]⟩]) := by
  have live : (sharedRows.block? ⟨1⟩).isSome := rfl
  have block : sharedRows.block? ⟨0⟩ = some [.num 2, .num 5, .num 6, .num 7] := rfl
  obtain ⟨t, read, number, length⟩ := stratified_sharedRows.tree?_of_store live block
  have old : t = .interior 2 [.leaf ⟨[2, 5, 6]⟩, .leaf ⟨[2, 5, 6]⟩] :=
    Option.some.inj (read.symm.trans rfl)
  subst old
  obtain ⟨new, made, shown, -⟩ := length 3 (by decide)
  have row : new = .leaf ⟨[3, 5, 6, 7]⟩ := Option.some.inj (made.symm.trans rfl)
  subst row
  exact ⟨stratified_sharedRows, live, block, number rfl 0 9 (by decide), shown⟩

end Heap

end ArrayLayout
