/-
Changes at a path, and what they leave alone.

`Tree.modify?` goes down a path and rebuilds the arrays on it.  Whatever a change keeps
at its own place and every array on the way keeps too is kept by the whole tree; and a
change of a leaf is seen by the paths to that leaf and by no others.

* `Tree.modify?_rec` — the induction behind all that follows;
* `Tree.wellFormed_of_modify?` — lengths stay true if the change keeps them so;
* `Tree.at?_of_modify?` — which paths see a change;
* `Tree.leafAt?_of_modify?` — the same for a change of a leaf;
* `Tree.isSome_set?` — a number can be stored where one can be read;
* `Tree.get?_of_set?` — reading after storing;
* `Tree.wellFormed_of_set?`, `Tree.hasRank_of_set?`, `Tree.size_of_set?` — storing keeps
  lengths, rank and number of arrays.
-/
import ArrayLayout.Proofs.Preorder

namespace ArrayLayout

/-- Reading a leaf after a number was stored in it. -/
theorem Leaf.get?_of_set? {l l' : Leaf} {index : Nat} {value : UInt64}
    (stored : l.set? index value = some l') (j : Nat) :
    l'.get? j = if j = index then some value else l.get? j := by
  have room : index < l.payload.length := isSome_set?.1 (by rw [stored]; rfl)
  rw [get?, get?, payload_set? stored, List.getElem?_set]
  by_cases same : index = j
  · rw [if_pos same, if_pos same.symm, if_pos room]
  · rw [if_neg same, if_neg (Ne.symm same)]

theorem Leaf.wellFormed_of_set? {l l' : Leaf} {index : Nat} {value : UInt64}
    (stored : l.set? index value = some l') (sound : l.WellFormed) : l'.WellFormed := by
  have len := length_set? stored
  unfold set? at stored
  split at stored
  · cases stored
    rw [WellFormed, len, List.length_set]
    exact sound
  · cases stored

namespace Tree

variable {change : Tree → Option Tree} {t t' : Tree} {path : List Nat}

theorem modify?_cons_eq_some_iff {i : Nat} {rest : List Nat} :
    modify? change (i :: rest) t = some t' ↔
      ∃ n ts c c', t = interior n ts ∧ ts[i]? = some c ∧ modify? change rest c = some c' ∧
        t' = interior n (ts.set i c') := by
  cases t with
  | leaf l => simp [modify?]
  | interior n ts =>
    simp only [modify?, Option.bind_eq_some_iff, Option.map_eq_some_iff, interior.injEq]
    constructor
    · rintro ⟨c, child, c', below, rfl⟩
      exact ⟨n, ts, c, c', ⟨rfl, rfl⟩, child, below, rfl⟩
    · rintro ⟨_, _, c, c', ⟨rfl, rfl⟩, child, below, rfl⟩
      exact ⟨c, child, c', below, rfl⟩

/-- What holds between an array and its change, and is handed on from a sub-array to the
array around it, holds between a tree and the changed tree. -/
theorem modify?_rec {motive : Tree → Tree → Prop}
    (here : ∀ s s', change s = some s' → motive s s')
    (around : ∀ n ts i c c', ts[i]? = some c → motive c c' →
      motive (interior n ts) (interior n (ts.set i c')))
    (changed : modify? change path t = some t') : motive t t' := by
  induction path generalizing t t' with
  | nil =>
    rw [modify?_nil] at changed
    exact here t t' changed
  | cons i rest ih =>
    obtain ⟨n, ts, c, c', rfl, child, below, rfl⟩ := modify?_cons_eq_some_iff.1 changed
    exact around n ts i c c' child (ih below)

/-- Lengths stay true where a change keeps them true. -/
theorem wellFormed_of_modify? (keeps : ∀ s s', change s = some s' → s.WellFormed → s'.WellFormed)
    (changed : modify? change path t = some t') (sound : t.WellFormed) : t'.WellFormed := by
  refine modify?_rec (motive := fun s s' => s.WellFormed → s'.WellFormed) keeps ?_ changed sound
  intro n ts i c c' child kept sound
  obtain ⟨count, sounds⟩ := (wellFormed_interior n ts).1 sound
  refine (wellFormed_interior n _).2 ⟨by rwa [List.length_set], fun s part => ?_⟩
  rcases List.mem_or_eq_of_mem_set part with old | rfl
  · exact sounds s old
  · exact kept (sounds c (List.mem_of_getElem? child))

/-- All arrays of a tree with true lengths have true lengths. -/
theorem wellFormed_of_at? {s : Tree} (found : t.at? path = some s) (sound : t.WellFormed) :
    s.WellFormed := by
  induction path generalizing t with
  | nil =>
    rw [at?_nil, Option.some_inj] at found
    exact found ▸ sound
  | cons i rest ih =>
    obtain ⟨c, child, below⟩ := at?_cons_eq_some_iff.1 found
    cases t with
    | leaf l => cases child
    | interior n ts =>
      exact ih below (((wellFormed_interior n ts).1 sound).2 c (List.mem_of_getElem? child))

/-- Each index of a path leads one level down. -/
theorem hasRank_of_at? {s : Tree} {rank : Nat} (found : t.at? path = some s)
    (even : t.HasRank (path.length + rank)) : s.HasRank rank := by
  induction path generalizing t with
  | nil =>
    rw [at?_nil, Option.some_inj] at found
    rw [← found]
    simpa using even
  | cons i rest ih =>
    obtain ⟨c, child, below⟩ := at?_cons_eq_some_iff.1 found
    rw [List.length_cons, Nat.add_right_comm] at even
    cases t with
    | leaf l => cases child
    | interior n ts =>
      exact ih below (((hasRank_interior n ts _).1 even).2 c (List.mem_of_getElem? child))

theorem onLeaf?_eq_some_iff {change : Leaf → Option Leaf} :
    onLeaf? change t = some t' ↔ ∃ l l', t = leaf l ∧ change l = some l' ∧ t' = leaf l' := by
  cases t with
  | leaf l => simp [onLeaf?, eq_comm]
  | interior n ts => simp [onLeaf?]

/-- Lengths stay true where a change of a leaf keeps its length true. -/
theorem wellFormed_of_onLeaf? {change : Leaf → Option Leaf}
    (keeps : ∀ l l', change l = some l' → l.WellFormed → l'.WellFormed)
    (changed : modify? (onLeaf? change) path t = some t') (sound : t.WellFormed) :
    t'.WellFormed := by
  refine wellFormed_of_modify? ?_ changed sound
  intro s s' run sound
  obtain ⟨l, l', rfl, applied, rfl⟩ := onLeaf?_eq_some_iff.1 run
  exact keeps l l' applied sound

/-! ### Leaves -/

@[simp] theorem leafAt?_nil (t : Tree) : t.leafAt? [] = t.leaf? := by
  rw [leafAt?, at?_nil, Option.bind_some]

theorem leafAt?_cons (t : Tree) (i : Nat) (rest : List Nat) :
    t.leafAt? (i :: rest) = (t.child? i).bind fun c => c.leafAt? rest := by
  simp only [leafAt?, at?_cons, Option.bind_assoc]

theorem leafAt?_leaf_cons (l : Leaf) (i : Nat) (rest : List Nat) :
    (leaf l).leafAt? (i :: rest) = none := by
  rw [leafAt?, at?_leaf_cons, Option.bind_none]

theorem leafAt?_interior_cons (n : UInt64) (ts : List Tree) (i : Nat) (rest : List Nat) :
    (interior n ts).leafAt? (i :: rest) = ts[i]?.bind fun c => c.leafAt? rest :=
  leafAt?_cons _ i rest

/-- An array that a path leads to is where all longer paths go on. -/
theorem leafAt?_append_of_at? {s : Tree} (found : t.at? path = some s) (q : List Nat) :
    t.leafAt? (path ++ q) = s.leafAt? q := by
  rw [leafAt?, at?_append, found, Option.bind_some, leafAt?]

/-- A change is seen by the paths that go through the changed array.  On all others the same
leaves are found as before. -/
theorem at?_of_modify? (changed : modify? change path t = some t') :
    ∃ s s', t.at? path = some s ∧ change s = some s' ∧ t'.at? path = some s' ∧
      ∀ q, ¬path <+: q → t'.leafAt? q = t.leafAt? q := by
  induction path generalizing t t' with
  | nil =>
    rw [modify?_nil] at changed
    exact ⟨t, t', at?_nil t, changed, at?_nil t', fun q off => absurd List.nil_prefix off⟩
  | cons i rest ih =>
    obtain ⟨n, ts, c, c', rfl, child, below, rfl⟩ := modify?_cons_eq_some_iff.1 changed
    obtain ⟨s, s', found, applied, here, elsewhere⟩ := ih below
    obtain ⟨bound, -⟩ := List.getElem?_eq_some_iff.1 child
    refine ⟨s, s', ?_, applied, ?_, fun q off => ?_⟩
    · rw [at?_interior_cons child, found]
    · rw [at?_interior_cons (List.getElem?_set_self bound), here]
    · cases q with
      | nil => simp [leaf?]
      | cons j q =>
        rw [leafAt?_cons, leafAt?_cons, child?, child?, children, children]
        by_cases same : i = j
        · subst same
          rw [List.getElem?_set_self bound, child]
          exact elsewhere q fun on => off (List.cons_prefix_cons.2 ⟨rfl, on⟩)
        · -- a path that starts at another element does not meet the change
          rw [List.getElem?_set_ne same]

/-- A change of a leaf is seen at the path of that leaf and at no other path. -/
theorem leafAt?_of_modify? {change : Leaf → Option Leaf}
    (changed : modify? (onLeaf? change) path t = some t') :
    ∃ l l', t.leafAt? path = some l ∧ change l = some l' ∧
      ∀ q, t'.leafAt? q = if q = path then some l' else t.leafAt? q := by
  obtain ⟨s, s', found, run, here, elsewhere⟩ := at?_of_modify? changed
  obtain ⟨l, l', rfl, applied, rfl⟩ := onLeaf?_eq_some_iff.1 run
  refine ⟨l, l', by rw [leafAt?, found]; rfl, applied, fun q => ?_⟩
  by_cases through : path <+: q
  · -- no path goes on from a leaf
    obtain ⟨rest, rfl⟩ := through
    rw [leafAt?_append_of_at? here, leafAt?_append_of_at? found]
    cases rest with
    | nil => simp [leaf?]
    | cons j rest => simp [leafAt?_cons, child?, children]
  · rw [elsewhere q through, if_neg fun same : q = path => through (by rw [same])]

/-- A change applies exactly where a path leads to an array that it applies to. -/
theorem isSome_modify? (change : Tree → Option Tree) (path : List Nat) (t : Tree) :
    (modify? change path t).isSome = ((t.at? path).bind change).isSome := by
  induction path generalizing t with
  | nil => simp
  | cons i rest ih =>
    cases t with
    | leaf l => simp [modify?, child?, children]
    | interior n ts =>
      rw [at?_cons, child?, children]
      cases child : ts[i]? with
      | none => simp [modify?, child]
      | some c => simpa [modify?, child] using ih c

theorem isSome_modify?_onLeaf? (change : Leaf → Option Leaf) (path : List Nat) (t : Tree) :
    (modify? (onLeaf? change) path t).isSome = ((t.leafAt? path).bind change).isSome := by
  rw [isSome_modify?, leafAt?, Option.bind_assoc]
  cases t.at? path with
  | none => rfl
  | some s => cases s <;> simp [onLeaf?, leaf?]

/-! ### Numbers -/

theorem set?_concat (t : Tree) (path : List Nat) (last : Nat) (value : UInt64) :
    t.set? (path ++ [last]) value = t.modify? (onLeaf? fun l => l.set? last value) path := by
  simp [set?]

theorem exists_concat_of_set? {value : UInt64} (stored : t.set? path value = some t') :
    ∃ outer last, path = outer ++ [last] := by
  rcases List.eq_nil_or_concat' path with rfl | found
  · cases stored
  · exact found

/-- A number can be stored exactly where one can be read. -/
theorem isSome_set? (t : Tree) (path : List Nat) (value : UInt64) :
    (t.set? path value).isSome = (t.get? path).isSome := by
  rcases List.eq_nil_or_concat' path with rfl | ⟨outer, last, rfl⟩
  · rfl
  · rw [set?_concat, isSome_modify?_onLeaf?, get?_concat]
    cases t.leafAt? outer with
    | none => rfl
    | some l =>
      rw [Option.bind_some, Option.bind_some, Bool.eq_iff_iff, Leaf.isSome_set?, Leaf.get?]
      simp

/-- A stored number is read back at its path, and nothing else has changed. -/
theorem get?_of_set? {value : UInt64} (stored : t.set? path value = some t') (q : List Nat) :
    t'.get? q = if q = path then some value else t.get? q := by
  obtain ⟨outer, last, rfl⟩ := exists_concat_of_set? stored
  rw [set?_concat] at stored
  obtain ⟨l, l', found, applied, elsewhere⟩ := leafAt?_of_modify? stored
  -- a path to a number is a path to a leaf and an index in it
  rcases List.eq_nil_or_concat' q with rfl | ⟨outer', last', rfl⟩
  · simp
  · rw [get?_concat, get?_concat, elsewhere outer']
    by_cases same : outer' = outer
    · subst same
      rw [if_pos rfl, found, Option.bind_some, Option.bind_some, Leaf.get?_of_set? applied]
      simp
    · have other : outer' ++ [last'] ≠ outer ++ [last] :=
        fun eq => same (List.append_inj' eq rfl).1
      rw [if_neg same, if_neg other]

/-! ### What storing a number keeps -/

variable {value : UInt64}

theorem wellFormed_of_set? (stored : t.set? path value = some t') (sound : t.WellFormed) :
    t'.WellFormed := by
  obtain ⟨outer, last, rfl⟩ := exists_concat_of_set? stored
  rw [set?_concat] at stored
  exact wellFormed_of_onLeaf? (fun _ _ => Leaf.wellFormed_of_set?) stored sound

theorem hasRank_of_set? {rank : Nat} (stored : t.set? path value = some t')
    (even : t.HasRank rank) : t'.HasRank rank := by
  obtain ⟨outer, last, rfl⟩ := exists_concat_of_set? stored
  rw [set?_concat] at stored
  refine modify?_rec (motive := fun s s' => ∀ rank, s.HasRank rank → s'.HasRank rank) ?_ ?_
    stored rank even
  · intro s s' run rank even
    obtain ⟨l, l', rfl, -, rfl⟩ := onLeaf?_eq_some_iff.1 run
    rw [hasRank_leaf] at even ⊢
    exact even
  · intro n ts i c c' child kept rank even
    obtain ⟨below, rfl, parts⟩ := exists_rank_of_interior even
    refine (hasRank_interior n _ (below + 1)).2 ⟨Nat.succ_pos below, fun s part => ?_⟩
    rcases List.mem_or_eq_of_mem_set part with old | rfl
    · exact parts s old
    · exact kept (below + 1) (parts c (List.mem_of_getElem? child))

/-- Replacing a sub-array by one of the same value keeps all values. -/
theorem map_set_of_eq {β : Type} {f : Tree → β} {ts : List Tree} {i : Nat} {c c' : Tree}
    (child : ts[i]? = some c) (same : f c' = f c) : (ts.set i c').map f = ts.map f := by
  obtain ⟨bound, rfl⟩ := List.getElem?_eq_some_iff.1 child
  rw [List.map_set, same, ← List.getElem_map f, List.set_getElem_self]
  rwa [List.length_map]

theorem size_of_set? (stored : t.set? path value = some t') : t'.size = t.size := by
  obtain ⟨outer, last, rfl⟩ := exists_concat_of_set? stored
  rw [set?_concat] at stored
  refine modify?_rec (motive := fun s s' => s'.size = s.size) ?_ ?_ stored
  · intro s s' run
    obtain ⟨l, l', rfl, -, rfl⟩ := onLeaf?_eq_some_iff.1 run
    rfl
  · intro n ts i c c' child same
    rw [size_interior, size_interior, map_set_of_eq child same]

end Tree

end ArrayLayout
