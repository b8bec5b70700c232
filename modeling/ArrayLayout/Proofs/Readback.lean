/-
What reading a nested array comes to.

A block starts with its length, and as many of the cells after it as the length says are
elements.  The nested array at a block is made of that length and of what the elements lead
to, so it depends on nothing but the arrays that paths lead to.

* `Heap.read_of_block` — what is read of a single block;
* `Heap.treeOf?` — the nested array with a given length and given elements;
* `Heap.tree?_of_block` — reading in that form;
* `Heap.wellFormed_of_tree?` — lengths are true in whatever is read;
* `Heap.tree?_of_follow?` — only the arrays that paths lead to matter;
* `Heap.tree?_of_extends` — so what can be read stays as it is when blocks are added.
-/
import ArrayLayout.Heap.Read
import ArrayLayout.Proofs.WellFormed

namespace ArrayLayout

namespace Heap

variable {h h' : Heap} {r : Ref} {n : UInt64} {rest : List Cell} {rank : Nat} {t : Tree}

/-! ### One block -/

/-- What is read of a block whose length is not too large: the length, and that many of the
cells after it. -/
theorem read_of_block (block : h.block? r = some (.num n :: rest))
    (within : n.toNat ≤ rest.length) :
    h.length? r = some n ∧ h.cells? r = some (.num n :: rest.take n.toNat) ∧
      h.payload? r = some (rest.take n.toNat) := by
  have len : h.length? r = some n := by
    simp [length?, block, lengthCell, Cell.num?]
  have cells : h.cells? r = some (.num n :: rest.take n.toNat) := by
    simp [cells?, block, len, within]
  refine ⟨len, cells, ?_⟩
  simp [payload?, cells, lengthCell]

/-- A block that can be read starts with its length, which is not too large. -/
theorem exists_block?_of_cells? {cells : List Cell} (read : h.cells? r = some cells) :
    ∃ n rest, h.block? r = some (.num n :: rest) ∧ n.toNat ≤ rest.length := by
  simp only [cells?, Option.bind_eq_bind, Option.bind_eq_some_iff] at read
  obtain ⟨block, live, n, len, fits⟩ := read
  simp only [length?, live, Option.bind_eq_bind, Option.bind_some, Option.bind_eq_some_iff] at len
  obtain ⟨first, there, number⟩ := len
  cases block with
  | nil => simp at there
  | cons c rest =>
    obtain rfl : c = first := by simpa [lengthCell] using there
    cases c with
    | ref s => cases number
    | num m =>
      obtain rfl : m = n := Option.some_inj.1 number
      refine ⟨m, rest, live, ?_⟩
      by_contra long
      rw [List.length_cons, if_neg (by omega)] at fits
      cases fits

/-! ### Trees -/

theorem eq_of_ref? {c : Cell} {s : Ref} (ref : c.ref? = some s) : c = .ref s := by
  cases c with
  | num v => cases ref
  | ref s' => rw [Option.some_inj.1 ref]

/-- The nested array of `rank` dimensions with this length and these elements. -/
def treeOf? (h : Heap) : (rank : Nat) → (length : UInt64) → (elements : List Cell) → Option Tree
  | 0, _, _ => none
  | 1, n, elements => (elements.mapM Cell.num?).map fun numbers => .leaf ⟨n :: numbers⟩
  | rank + 2, n, elements =>
    (elements.mapM fun c : Cell => c.ref?.bind (h.tree? (rank + 1))).map (.interior n)

/-- All results of a pass over a list are there, each that of its own place. -/
theorem mapM_eq_some_iff {α β : Type} {f : α → Option β} {as : List α} {bs : List β} :
    as.mapM f = some bs ↔
      as.length = bs.length ∧
        ∀ (i : Nat) a b, as[i]? = some a → bs[i]? = some b → f a = some b := by
  induction as generalizing bs with
  | nil => cases bs <;> simp
  | cons a as ih =>
    simp only [List.mapM_cons, Option.bind_eq_bind, Option.bind_eq_some_iff]
    constructor
    · rintro ⟨b, first, bs', others, result⟩
      cases result
      obtain ⟨len, each⟩ := ih.1 others
      refine ⟨by simp [len], ?_⟩
      intro i a' b' left right
      cases i with
      | zero =>
        obtain rfl : a = a' := by simpa using left
        obtain rfl : b = b' := by simpa using right
        exact first
      | succ i => exact each i a' b' (by simpa using left) (by simpa using right)
    · rintro ⟨len, each⟩
      cases bs with
      | nil => simp at len
      | cons b bs =>
        refine ⟨b, each 0 a b rfl rfl, bs, ih.2 ⟨by simpa using len, ?_⟩, rfl⟩
        intro i a' b' left right
        exact each (i + 1) a' b' (by simpa using left) (by simpa using right)

theorem exists_mapM_eq_some {α β : Type} {f : α → Option β} {as : List α}
    (each : ∀ a ∈ as, ∃ b, f a = some b) : ∃ bs, as.mapM f = some bs := by
  induction as with
  | nil => exact ⟨[], rfl⟩
  | cons a as ih =>
    obtain ⟨b, first⟩ := each a List.mem_cons_self
    obtain ⟨bs, others⟩ := ih fun c part => each c (List.mem_cons_of_mem a part)
    exact ⟨b :: bs, by simp [first, others]⟩

theorem mapM_set {α β : Type} {f : α → Option β} {as : List α} {bs : List β} {a : α} {b : β}
    (run : as.mapM f = some bs) (new : f a = some b) (i : Nat) :
    (as.set i a).mapM f = some (bs.set i b) := by
  obtain ⟨len, each⟩ := mapM_eq_some_iff.1 run
  refine mapM_eq_some_iff.2 ⟨by simpa using len, ?_⟩
  intro j c d left right
  by_cases same : i = j
  · subst same
    obtain ⟨bound, -⟩ := List.getElem?_eq_some_iff.1 left
    rw [List.length_set] at bound
    rw [List.getElem?_set_self bound, Option.some_inj] at left
    rw [List.getElem?_set_self (len ▸ bound), Option.some_inj] at right
    rwa [← left, ← right]
  · rw [List.getElem?_set_ne same] at left right
    exact each j c d left right

/-- Two passes over a list, the second over the results of the first, are one. -/
theorem mapM_bind_mapM {α β γ : Type} (f : α → Option β) (g : β → Option γ) (as : List α) :
    ((as.mapM f).bind fun bs => bs.mapM g) = as.mapM fun a => (f a).bind g := by
  induction as with
  | nil => rfl
  | cons a as ih =>
    simp only [List.mapM_cons, ← ih]
    cases f a with
    | none => simp
    | some b =>
      cases as.mapM f with
      | none => simp
      | some bs => simp

/-- Reading an array takes its length, and as many elements as that says. -/
theorem tree?_of_block (rank : Nat) (block : h.block? r = some (.num n :: rest))
    (within : n.toNat ≤ rest.length) :
    h.tree? rank r = h.treeOf? rank n (rest.take n.toNat) := by
  obtain ⟨len, cells, payload⟩ := read_of_block block within
  match rank with
  | 0 => rfl
  | 1 =>
    rw [tree?_one, leaf?, cells, treeOf?, Option.bind_eq_bind, Option.bind_some, List.mapM_cons]
    cases (rest.take n.toNat).mapM Cell.num? <;> rfl
  | rank + 2 =>
    simp only [tree?, children?, len, payload, treeOf?, Option.bind_eq_bind, Option.bind_some,
      ← mapM_bind_mapM]
    cases (rest.take n.toNat).mapM Cell.ref? with
    | none => rfl
    | some subs =>
      simp only [Option.bind_some]
      cases subs.mapM (h.tree? (rank + 1)) <;> rfl

theorem exists_block?_of_tree? (read : h.tree? rank r = some t) :
    ∃ n rest, h.block? r = some (.num n :: rest) ∧ n.toNat ≤ rest.length := by
  match rank with
  | 0 => cases read
  | 1 =>
    rw [tree?_one, Option.map_eq_some_iff] at read
    obtain ⟨l, leaf, -⟩ := read
    simp only [leaf?, Option.bind_eq_bind, Option.bind_eq_some_iff] at leaf
    obtain ⟨cells, found, -⟩ := leaf
    exact exists_block?_of_cells? found
  | rank + 2 =>
    simp only [tree?, children?, payload?, Option.bind_eq_bind, Option.bind_eq_some_iff,
      Option.map_eq_some_iff] at read
    obtain ⟨-, -, -, ⟨-, ⟨cells, found, -⟩, -⟩, -⟩ := read
    exact exists_block?_of_cells? found

/-- An array over as many elements as its length says is well formed. -/
theorem wellFormed_of_treeOf? {elements : List Cell} (count : elements.length = n.toNat)
    (below : ∀ rank' < rank, ∀ s u, h.tree? rank' s = some u → u.WellFormed)
    (made : h.treeOf? rank n elements = some t) : t.WellFormed := by
  match rank with
  | 0 => cases made
  | 1 =>
    obtain ⟨numbers, read, rfl⟩ := Option.map_eq_some_iff.1 made
    have len := (mapM_eq_some_iff.1 read).1
    simp [Leaf.WellFormed, ← len, count]
  | rank + 2 =>
    obtain ⟨ts, read, rfl⟩ := Option.map_eq_some_iff.1 made
    obtain ⟨len, each⟩ := mapM_eq_some_iff.1 read
    refine (Tree.wellFormed_interior n ts).2 ⟨by omega, ?_⟩
    intro u part
    obtain ⟨i, bound, rfl⟩ := List.mem_iff_getElem.1 part
    have there := each i elements[i] ts[i] (by simp [len, bound]) (by simp [bound])
    obtain ⟨s, -, sub⟩ := Option.bind_eq_some_iff.1 there
    exact below (rank + 1) (by omega) s _ sub

/-- Whatever is read from memory, its lengths are true: reading takes as many elements as
the length cell says. -/
theorem wellFormed_of_tree? (read : h.tree? rank r = some t) : t.WellFormed := by
  induction rank using Nat.strong_induction_on generalizing r t with
  | _ rank ih =>
    obtain ⟨n, rest, block, within⟩ := exists_block?_of_tree? read
    rw [tree?_of_block rank block within] at read
    refine wellFormed_of_treeOf? (by simpa using within) ?_ read
    intro rank' lower s u below
    exact ih rank' lower below

/-! ### What reading depends on -/

theorem follow?_cons (h : Heap) (r : Ref) (i : Nat) (path : List Nat) :
    h.follow? r (i :: path) =
      (h.payload? r).bind fun subs =>
        subs[i]?.bind fun c => c.ref?.bind fun s => h.follow? s path := rfl

/-- A path through an element goes on where the element refers to. -/
theorem follow?_of_block {i : Nat} {s : Ref} (block : h.block? r = some (.num n :: rest))
    (within : n.toNat ≤ rest.length) (element : (rest.take n.toNat)[i]? = some (.ref s))
    (path : List Nat) : h.follow? r (i :: path) = h.follow? s path := by
  rw [follow?_cons, (read_of_block block within).2.2, Option.bind_some, element]
  rfl

/-- An array is read in `h'` as in `h`, apart from what has become of its sub-arrays. -/
theorem treeOf?_mapIdx {elements : List Cell} {f : Nat → Tree → Tree} {ts : List Tree}
    (made : h.treeOf? (rank + 2) n elements = some (.interior n ts))
    (below : ∀ (i : Nat) s u, elements[i]? = some (.ref s) → h.tree? (rank + 1) s = some u →
      h'.tree? (rank + 1) s = some (f i u)) :
    h'.treeOf? (rank + 2) n elements = some (.interior n (ts.mapIdx f)) := by
  obtain ⟨_, read, ⟨⟩⟩ := Option.map_eq_some_iff.1 made
  obtain ⟨len, each⟩ := mapM_eq_some_iff.1 read
  refine Option.map_eq_some_iff.2 ⟨_, mapM_eq_some_iff.2 ⟨by simpa using len, ?_⟩, rfl⟩
  intro i c u left right
  rw [List.getElem?_mapIdx, Option.map_eq_some_iff] at right
  obtain ⟨old, part, rfl⟩ := right
  obtain ⟨s, ref, sub⟩ := Option.bind_eq_some_iff.1 (each i c old left part)
  obtain rfl := eq_of_ref? ref
  exact below i s old left sub

/-- An array is read in `h'` as in `h` if its sub-arrays are. -/
theorem treeOf?_of_imp {elements : List Cell} (made : h.treeOf? (rank + 1) n elements = some t)
    (below : ∀ (i : Nat) s u, elements[i]? = some (.ref s) → h.tree? rank s = some u →
      h'.tree? rank s = some u) : h'.treeOf? (rank + 1) n elements = some t := by
  match rank with
  | 0 => exact made
  | rank + 1 =>
    obtain ⟨ts, -, rfl⟩ := Option.map_eq_some_iff.1 made
    have same : ts.mapIdx (fun _ u => u) = ts :=
      List.ext_getElem? fun i => by rw [List.getElem?_mapIdx, Option.map_id']
    rw [treeOf?_mapIdx made below, same]

/-- What is read depends only on the arrays that paths lead to. -/
theorem tree?_of_follow? (same : ∀ path s cells, h.follow? r path = some s →
      h.block? s = some cells → h'.block? s = some cells)
    (read : h.tree? rank r = some t) : h'.tree? rank r = some t := by
  induction rank generalizing r t with
  | zero => cases read
  | succ rank ih =>
    obtain ⟨n, rest, block, within⟩ := exists_block?_of_tree? read
    have block' := same [] r _ rfl block
    rw [tree?_of_block (rank + 1) block within] at read
    rw [tree?_of_block (rank + 1) block' within]
    refine treeOf?_of_imp read ?_
    intro i s u element sub
    -- the paths of a sub-array are the paths of the array that start at its element
    refine ih ?_ sub
    intro path s' cells led
    exact same (i :: path) s' cells (by rw [follow?_of_block block within element, led])

/-- What can be read stays as it is when blocks are added. -/
theorem tree?_of_extends (more : h.Extends h') (read : h.tree? rank r = some t) :
    h'.tree? rank r = some t := by
  refine tree?_of_follow? ?_ read
  intro path s cells _
  exact more s cells

end Heap

end ArrayLayout
