/-
Runs in memory follow runs on trees.

The same operations are carried out on named trees and on named arrays in one memory.
Nothing is shared in such a run: every name has a stretch of blocks of its own, and a
write by way of references stays inside the stretch of its name.

* `Operation` — what is done, on either side; `Operation.AllowedFrom` — what callers
  promise about it;
* `Root.Mirrors` — a root in memory is the same nested array as a tree;
* `Store.Refines` — so is every name, and the stretches of names are apart;
* `Store.Refines.build`, `Store.Refines.store` — each operation keeps that up;
* `Operation.refines_foldl` — so does a run;
* `Store.StoredAt` — a number is stored at one place, and no other place shows it;
* `Operation.storeAfter_refines_treesAfter` — reading memory gives the trees, at any time.
-/
import ArrayLayout.Proofs.Agreement
import ArrayLayout.Proofs.Writes
import ArrayLayout.Session.Memory
import ArrayLayout.Session.Trees

namespace ArrayLayout

open ArrayLayout.Tree

/-! ### Operations -/

/-- An operation on named nested arrays. -/
inductive Operation where
  /-- Gives a name to a new nested array. -/
  | build (name : String) (shape : Shape)
  /-- Stores a number: `outer` leads to the leaf, `last` is the index in it. -/
  | store (name : String) (outer : List Nat) (last : Nat) (value : UInt64)

namespace Operation

/-- The operation as a step on named trees. -/
def treeStep : Operation → TreeStep
  | build name shape => .build name shape
  | store name outer last value => .set name (outer ++ [last]) value

/-- The operation as a step in memory.  The length cell comes before the numbers. -/
def memoryStep : Operation → MemoryStep
  | build name shape => .build name shape
  | store name outer last value => .write name outer (last + 1) value

/-- Named trees after an operation. -/
def onTrees (trees : Names Tree) (op : Operation) : Names Tree := (op.treeStep.run trees).result.1

/-- Memory and its names after an operation. -/
def onStore (s : Store) (op : Operation) : Store := (op.memoryStep.run s).result.1

/-- Named trees after a run that starts with nothing. -/
def treesAfter (ops : List Operation) : Names Tree := ops.foldl onTrees .empty

/-- Memory and its names after a run that starts with nothing. -/
def storeAfter (ops : List Operation) : Store := ops.foldl onStore .empty

/-- A shape has to be one that the builder of trees takes, and a number is only stored
where there is one. -/
def Allowed (trees : Names Tree) : Operation → Prop
  | build _ shape => ∃ t, Tree.build shape = .ok t
  | store name outer last _ =>
    ∃ t old, trees.find? name = some t ∧ t.get? (outer ++ [last]) = some old

/-- Every operation of a run is allowed when its turn comes. -/
def AllowedFrom (trees : Names Tree) : List Operation → Prop
  | [] => True
  | op :: rest => op.Allowed trees ∧ AllowedFrom (onTrees trees op) rest

theorem allowedFrom_append {trees : Names Tree} {ops rest : List Operation} :
    AllowedFrom trees (ops ++ rest) ↔
      AllowedFrom trees ops ∧ AllowedFrom (ops.foldl onTrees trees) rest := by
  induction ops generalizing trees with
  | nil => simp [AllowedFrom]
  | cons op ops ih => simp [AllowedFrom, ih, and_assoc]

end Operation

/-! ### One name -/

/-- The root is the tree: the tree stands in order where the root is. -/
structure Root.Mirrors (h : Heap) (root : Root) (t : Tree) : Prop where
  sound : t.WellFormed
  even : t.HasRank root.rank
  holds : h.Holds t root.array.index
  below : root.array.index + t.size ≤ h.next.index

namespace Root

variable {h h' : Heap} {root : Root} {t : Tree}

theorem Mirrors.tree? (mirror : root.Mirrors h t) : root.tree? h = some t :=
  mirror.holds.tree? mirror.sound mirror.even

theorem Mirrors.exists_children? (mirror : root.Mirrors h t) :
    ∃ subs, root.children? h = some subs := by
  unfold Root.children?
  split
  · exact ⟨[], rfl⟩
  · rename_i deep
    have even := mirror.even
    cases t with
    | leaf l => exact absurd ((hasRank_leaf l root.rank).1 even) deep
    | interior n ts =>
      have count := ((wellFormed_interior n ts).1 mirror.sound).1
      exact ⟨_, (mirror.holds.read_interior count).2.2⟩

theorem Mirrors.exists_view? (mirror : root.Mirrors h t) : ∃ view, root.view? h = some view := by
  obtain ⟨subs, children⟩ := mirror.exists_children?
  have length : root.length? h = some t.length := mirror.holds.length? mirror.sound
  simp [view?, mirror.tree?, length, isEmpty?, children]

theorem Mirrors.frame (mirror : root.Mirrors h t) (grown : h.next.index ≤ h'.next.index)
    (same : ∀ k < t.size, h'.block? ⟨root.array.index + k⟩ = h.block? ⟨root.array.index + k⟩) :
    root.Mirrors h' t where
  sound := mirror.sound
  even := mirror.even
  holds := mirror.holds.frame same
  below := Nat.le_trans mirror.below grown

/-- A new root is the tree of zeros, and it is behind everything else. -/
theorem run_build_of_check {s : Shape} (passed : s.check checkBlock checkBlock = .ok ())
    (h : Heap) : ∃ (root : Root) (h' : Heap), (Root.build s).run h = .ok (root, h') ∧
      root.array = h.next ∧ Heap.Built h h' (zeros s) ∧ root.Mirrors h' (zeros s) := by
  have nonempty := Shape.ne_nil_of_check passed
  have pos : 0 < s.rank := List.length_pos_iff.2 nonempty
  obtain ⟨h', ran, built⟩ := Heap.run_build_of_check passed h
  refine ⟨⟨h.next, s.rank, pos⟩, h', ?_, rfl, built, ?_⟩
  · simp only [Root.build, StateT.run_bind, ran, guard, pos, dite_true]
    rfl
  · exact ⟨wellFormed_zeros nonempty, hasRank_zeros nonempty, built.holds,
      Nat.le_of_eq built.next.symm⟩

end Root

/-! ### All names -/

/-- Every name stands for the same nested array in memory and as a tree, and the
stretches of different names are apart. -/
structure Store.Refines (s : Store) (trees : Names Tree) : Prop where
  named : ∀ name, (s.roots.find? name).isSome = (trees.find? name).isSome
  mirrors : ∀ name held t, s.roots.find? name = some held → trees.find? name = some t →
    held.root.Mirrors s.heap t
  apart : ∀ name other held held' t t', name ≠ other →
    s.roots.find? name = some held → trees.find? name = some t →
    s.roots.find? other = some held' → trees.find? other = some t' →
    held.root.array.index + t.size ≤ held'.root.array.index ∨
      held'.root.array.index + t'.size ≤ held.root.array.index

namespace Store

variable {s : Store} {trees : Names Tree} {name : String} {t t' : Tree}

theorem refines_empty : Store.empty.Refines .empty where
  named := fun _ => rfl
  mirrors := by
    intro name held t _ found
    cases found
  apart := by
    intro name other held held' t t' _ _ found
    cases found

theorem Refines.exists_held (related : s.Refines trees) (found : trees.find? name = some t) :
    ∃ held, s.roots.find? name = some held := by
  rw [← Option.isSome_iff_exists, related.named, found]
  rfl

/-- The nested array of a name in memory, as a tree. -/
def tree? (s : Store) (name : String) : Option Tree :=
  (s.roots.find? name).bind fun held => held.root.tree? s.heap

/-- What can be read in `s'` is what can be read in `s`, except that the number at one path
of one name is now `value`. -/
structure StoredAt (s s' : Store) (name : String) (path : List Nat) (value : UInt64) :
    Prop where
  others : ∀ other, other ≠ name → s'.tree? other = s.tree? other
  here : ∃ t t', s.tree? name = some t ∧ s'.tree? name = some t' ∧
    t'.get? path = some value ∧ ∀ q, q ≠ path → t'.get? q = t.get? q

/-- Reading every root in memory gives the trees. -/
theorem Refines.map_tree? (related : s.Refines trees) (name : String) :
    (s.roots.find? name).map (fun held => held.root.tree? s.heap) =
      (trees.find? name).map some := by
  have both := related.named name
  cases root : s.roots.find? name with
  | none =>
    have absent : trees.find? name = none := by simpa [root] using both
    rw [absent]
    rfl
  | some held =>
    obtain ⟨t, tree⟩ := Option.isSome_iff_exists.1 (both.symm.trans (by rw [root]; rfl))
    rw [tree, Option.map_some, Option.map_some, (related.mirrors name held t root tree).tree?]

theorem Refines.tree? (related : s.Refines trees) (name : String) :
    s.tree? name = trees.find? name := by
  have read := related.map_tree? name
  rw [Store.tree?]
  cases root : s.roots.find? name with
  | none =>
    rw [root] at read
    cases tree : trees.find? name with
    | none => rfl
    | some t => rw [tree] at read; cases read
  | some held =>
    cases tree : trees.find? name with
    | none => rw [root, tree] at read; cases read
    | some t =>
      rw [root, tree] at read
      exact Option.some_inj.1 read

/-! ### One operation -/

/-- A root and a tree take over a name.  Memory still refines the trees, if the roots of
all other names are as they were and the new stretch is apart from theirs. -/
theorem Refines.insert (related : s.Refines trees) {heap : Heap} {held : Held}
    {roots : Names Held} (mirror : held.root.Mirrors heap t)
    (here : roots.find? name = some held)
    (elsewhere : ∀ other, other ≠ name → roots.find? other = s.roots.find? other)
    (others : ∀ other held' u, other ≠ name → s.roots.find? other = some held' →
      trees.find? other = some u → held'.root.Mirrors heap u ∧
        (held'.root.array.index + u.size ≤ held.root.array.index ∨
          held.root.array.index + t.size ≤ held'.root.array.index)) :
    Refines ⟨heap, roots⟩ (trees.insert name t) where
  named := by
    intro other
    by_cases same : other = name
    · subst same
      rw [Names.find?_insert_self, here]
      rfl
    · rw [Names.find?_insert_of_ne trees t same, ← related.named, elsewhere other same]
  mirrors := by
    intro other held' u root tree
    by_cases same : other = name
    · subst same
      rw [here, Option.some_inj] at root
      rw [Names.find?_insert_self, Option.some_inj] at tree
      subst root tree
      exact mirror
    · rw [elsewhere other same] at root
      rw [Names.find?_insert_of_ne trees t same] at tree
      exact (others other held' u same root tree).1
  apart := by
    intro one two held₁ held₂ u₁ u₂ differ root₁ tree₁ root₂ tree₂
    by_cases first : one = name
    · subst first
      have second : two ≠ one := Ne.symm differ
      rw [here, Option.some_inj] at root₁
      rw [Names.find?_insert_self, Option.some_inj] at tree₁
      rw [elsewhere two second] at root₂
      rw [Names.find?_insert_of_ne trees t second] at tree₂
      subst root₁ tree₁
      exact (others two held₂ u₂ second root₂ tree₂).2.symm
    · rw [elsewhere one first] at root₁
      rw [Names.find?_insert_of_ne trees t first] at tree₁
      by_cases second : two = name
      · subst second
        rw [here, Option.some_inj] at root₂
        rw [Names.find?_insert_self, Option.some_inj] at tree₂
        subst root₂ tree₂
        exact (others one held₁ u₁ first root₁ tree₁).2
      · rw [elsewhere two second] at root₂
        rw [Names.find?_insert_of_ne trees t second] at tree₂
        exact related.apart one two held₁ held₂ u₁ u₂ differ root₁ tree₁ root₂ tree₂

/-- A new nested array comes behind all others. -/
theorem Refines.build (related : s.Refines trees) {shape : Shape}
    (built : Tree.build shape = .ok t) :
    Refines (Operation.onStore s (.build name shape))
      (Operation.onTrees trees (.build name shape)) := by
  obtain ⟨passed, rfl⟩ := Tree.build_eq_ok_iff.1 built
  obtain ⟨root, h', ran, array, inMemory, mirror⟩ :=
    Root.run_build_of_check (checkBlock_of_check passed) s.heap
  obtain ⟨view, viewed⟩ := mirror.exists_view?
  have onTrees : Operation.onTrees trees (.build name shape) = trees.insert name (zeros shape) := by
    show (TreeStep.keep trees name ((Tree.build shape).mapError .stopped)).1 = _
    rw [built]
    rfl
  have onStore : Operation.onStore s (.build name shape) =
      ⟨h', s.roots.insert name ⟨root, true⟩⟩ := by
    show (s.keep name (((Root.build shape).run s.heap).mapError .stopped)).1 = _
    rw [ran]
    show (s.keep name (.ok (root, h'))).1 = _
    simp only [keep, viewed]
  rw [onTrees, onStore]
  refine related.insert mirror (Names.find?_insert_self _ _ _)
    (fun other differ => Names.find?_insert_of_ne s.roots _ differ) ?_
  intro other held u _ root' tree
  -- every old stretch ends where the new one starts, or before
  have old := related.mirrors other held u root' tree
  have below := old.below
  refine ⟨old.frame ?_ fun k bound => inMemory.frame _ ?_, .inl ?_⟩
  · rw [inMemory.next]
    omega
  · show held.root.array.index + k < s.heap.next.index
    omega
  · show held.root.array.index + u.size ≤ root.array.index
    rw [array]
    exact below

theorem onTrees_store {outer : List Nat} {last : Nat} {value : UInt64}
    (found : trees.find? name = some t) (stored : t.set? (outer ++ [last]) value = some t') :
    Operation.onTrees trees (.store name outer last value) = trees.insert name t' := by
  show (TreeStep.update trees name (fun t => t.set? (outer ++ [last]) value) _).1 = _
  simp only [TreeStep.update, found, stored]

/-- The step that writes, when nothing is in its way. -/
theorem write_eq {held : Held} {path : List Nat} {index : Nat} {c old : Cell} {array : Ref}
    {cells : List Cell} (root : s.roots.find? name = some held)
    (led : s.heap.follow? held.root.array path = some array)
    (block : s.heap.block? array = some cells) (known : cells[index]? = some old)
    (read : held.root.tree? (s.heap.store array index c) = some t) :
    (s.write name path index c []).1 = { s with heap := s.heap.store array index c } := by
  simp [write, root, led, block, known, read]

/-- A number that is stored stays inside the stretch of its name. -/
theorem Refines.store (related : s.Refines trees) {outer : List Nat} {last : Nat}
    {value : UInt64} (found : trees.find? name = some t)
    (stored : t.set? (outer ++ [last]) value = some t') :
    Refines (Operation.onStore s (.store name outer last value))
      (Operation.onTrees trees (.store name outer last value)) := by
  obtain ⟨held, root⟩ := related.exists_held found
  have mirror := related.mirrors name held t root found
  obtain ⟨k, cells, old, bound, led, block, known, holds⟩ :=
    mirror.holds.store_number mirror.sound stored
  have size := size_of_set? stored
  have after : held.root.Mirrors
      (s.heap.store ⟨held.root.array.index + k⟩ (last + 1) (.num value)) t' := by
    refine ⟨wellFormed_of_set? stored mirror.sound, hasRank_of_set? stored mirror.even, holds, ?_⟩
    rw [Heap.next_store, size]
    exact mirror.below
  have onStore : Operation.onStore s (.store name outer last value) =
      { s with heap := s.heap.store ⟨held.root.array.index + k⟩ (last + 1) (.num value) } := by
    show (s.write name outer (last + 1) (.num value) []).1 = _
    exact write_eq root led block known after.tree?
  rw [onTrees_store found stored, onStore]
  refine related.insert after root (fun other _ => rfl) ?_
  intro other held' u differ root' tree
  have mirror' := related.mirrors other held' u root' tree
  have apart := related.apart other name held' held u t differ root' tree root found
  refine ⟨mirror'.frame (by rw [Heap.next_store]) fun j low => Heap.block?_store_of_ne _ _ ?_, ?_⟩
  · -- the cell that is written is in the stretch of `name`, and this block is not
    intro same
    have index := congrArg Ref.index same
    change held'.root.array.index + j = held.root.array.index + k at index
    omega
  · rw [size]
    exact apart

end Store

/-! ### Runs -/

namespace Operation

variable {s : Store} {trees : Names Tree} {op : Operation} {ops : List Operation}

theorem exists_set?_of_get? {t : Tree} {path : List Nat} {old : UInt64}
    (read : t.get? path = some old) (value : UInt64) : ∃ t', t.set? path value = some t' := by
  rw [← Option.isSome_iff_exists, isSome_set?, read]
  rfl

/-- One allowed operation keeps memory and trees together. -/
theorem refines_step (related : s.Refines trees) (allowed : op.Allowed trees) :
    (onStore s op).Refines (onTrees trees op) := by
  cases op with
  | build name shape =>
    obtain ⟨t, built⟩ := allowed
    exact related.build built
  | store name outer last value =>
    obtain ⟨t, old, found, read⟩ := allowed
    obtain ⟨t', stored⟩ := exists_set?_of_get? read value
    exact related.store found stored

/-- So does a run of allowed operations. -/
theorem refines_foldl (related : s.Refines trees) (allowed : AllowedFrom trees ops) :
    (ops.foldl onStore s).Refines (ops.foldl onTrees trees) := by
  -- the states of the run change along the induction, `Refines` is what they keep
  induction ops generalizing s trees with
  | nil => exact related
  | cons op ops ih => exact ih (refines_step related allowed.1) allowed.2

theorem allowedFrom_of_isPrefix {done : List Operation} (allowed : AllowedFrom trees ops)
    (part : done <+: ops) : AllowedFrom trees done := by
  obtain ⟨rest, rfl⟩ := part
  exact (allowedFrom_append.1 allowed).1

theorem refines_after (allowed : AllowedFrom .empty ops) :
    (storeAfter ops).Refines (treesAfter ops) :=
  refines_foldl Store.refines_empty allowed

theorem storeAfter_concat (ops : List Operation) (op : Operation) :
    storeAfter (ops ++ [op]) = onStore (storeAfter ops) op := by
  simp [storeAfter]

/-- Storing a number at a path of a name is seen there and nowhere else. -/
theorem storedAt_of_allowed {name : String} {outer : List Nat} {last : Nat} {value : UInt64}
    (related : s.Refines trees) (allowed : (store name outer last value).Allowed trees) :
    s.StoredAt (onStore s (.store name outer last value)) name (outer ++ [last]) value := by
  have after := refines_step related allowed
  obtain ⟨t, old, found, read⟩ := allowed
  obtain ⟨t', stored⟩ := exists_set?_of_get? read value
  rw [Store.onTrees_store found stored] at after
  have readBack := get?_of_set? stored
  constructor
  · intro other differ
    rw [after.tree?, related.tree?, Names.find?_insert_of_ne trees t' differ]
  · refine ⟨t, t', ?_, ?_, ?_, fun q away => ?_⟩
    · rw [related.tree?, found]
    · rw [after.tree?, Names.find?_insert_self]
    · rw [readBack, if_pos rfl]
    · rw [readBack, if_neg away]

/-- Along a run, reading every root in memory gives the trees, and a number that is stored
is seen at no other path and under no other name. -/
theorem storeAfter_refines_treesAfter {ops done : List Operation}
    (allowed : AllowedFrom .empty ops) (part : done <+: ops) :
    (∀ name, ((storeAfter done).roots.find? name).map
        (fun held => held.root.tree? (storeAfter done).heap) =
      ((treesAfter done).find? name).map some) ∧
    ∀ name outer last value, done ++ [store name outer last value] <+: ops →
      (storeAfter done).StoredAt (storeAfter (done ++ [store name outer last value]))
        name (outer ++ [last]) value := by
  have related := refines_after (allowedFrom_of_isPrefix allowed part)
  refine ⟨related.map_tree?, fun name outer last value next => ?_⟩
  have allowed' := (allowedFrom_append.1 (allowedFrom_of_isPrefix allowed next)).2
  rw [storeAfter_concat]
  exact storedAt_of_allowed related allowed'.1

/-- Two names: a number goes into each of them. -/
def twoNames : List Operation :=
  [.build "rows" [2, 2], .store "rows" [1] 0 7, .build "column" [1], .store "column" [] 0 9]

/-- Before the last operation both names are there, and that operation does not show in the
rows. -/
theorem storeAfter_twoNames :
    AllowedFrom .empty twoNames ∧ twoNames.dropLast <+: twoNames ∧
      (((storeAfter twoNames.dropLast).roots.find? "rows").map fun held =>
          held.root.tree? (storeAfter twoNames.dropLast).heap) =
        some (some (.interior 2 [.leaf ⟨[2, 0, 0]⟩, .leaf ⟨[2, 7, 0]⟩])) ∧
      (storeAfter twoNames.dropLast).StoredAt (storeAfter twoNames) "column" [0] 9 := by
  have allowed : AllowedFrom .empty twoNames :=
    ⟨⟨_, rfl⟩, ⟨_, 0, rfl, rfl⟩, ⟨_, rfl⟩, ⟨_, 0, rfl, rfl⟩, trivial⟩
  have part := List.dropLast_prefix twoNames
  have whole := storeAfter_refines_treesAfter allowed part
  exact ⟨allowed, part, whole.1 "rows", whole.2 "column" [] 0 9 List.prefix_rfl⟩

end Operation

end ArrayLayout
