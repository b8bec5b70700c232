/-
Paths into nested arrays.

A path lists zero-based indices from the root, one per level.  A path that leaves the
tree leads nowhere, whatever the size of its indices.

* `Tree.at?` — the array at a path;
* `Tree.get?` — the number whose index in its leaf is the last entry of the path;
* `Tree.modify?` — changes the array at a path and leaves the rest alone;
* `Tree.set?`, `Tree.replaceAt?`, `Tree.fillAt?` — the three changes made with it;
* `Tree.at?_append` — following a path in two parts.
-/
import ArrayLayout.Tree.Basic

namespace ArrayLayout

namespace Tree

/-! ### Reading -/

/-- The array at a path. -/
def at? : Tree → List Nat → Option Tree
  | t, [] => some t
  | t, i :: rest => (t.child? i).bind fun c => c.at? rest

/-- The leaf at a path. -/
def leafAt? (t : Tree) (path : List Nat) : Option Leaf := (t.at? path).bind leaf?

/-- The number at a path: the last index counts inside the leaf, the others lead to it. -/
def get? (t : Tree) (path : List Nat) : Option UInt64 :=
  match path.getLast? with
  | none => none
  | some last => (t.leafAt? path.dropLast).bind fun l => l.get? last

@[simp] theorem at?_nil (t : Tree) : t.at? [] = some t := by
  cases t <;> rfl

@[simp] theorem at?_cons (t : Tree) (i : Nat) (rest : List Nat) :
    t.at? (i :: rest) = (t.child? i).bind fun c => c.at? rest := by
  cases t <;> rfl

theorem at?_cons_eq_some_iff {t s : Tree} {i : Nat} {rest : List Nat} :
    t.at? (i :: rest) = some s ↔ ∃ c, t.child? i = some c ∧ c.at? rest = some s := by
  rw [at?_cons, Option.bind_eq_some_iff]

/-- No path goes on from a leaf. -/
theorem at?_leaf_cons (l : Leaf) (i : Nat) (rest : List Nat) :
    (leaf l).at? (i :: rest) = none := rfl

/-- From an interior array a path goes on in one of its elements. -/
theorem at?_interior_cons {n : UInt64} {ts : List Tree} {i : Nat} {c : Tree}
    (child : ts[i]? = some c) (rest : List Nat) :
    (interior n ts).at? (i :: rest) = c.at? rest := by
  rw [at?_cons, child?, children, child, Option.bind_some]

/-- A path in two parts is followed one part after the other. -/
theorem at?_append (t : Tree) (p q : List Nat) :
    t.at? (p ++ q) = (t.at? p).bind fun s => s.at? q := by
  induction p generalizing t with
  | nil => simp
  | cons i rest ih =>
    rw [List.cons_append, at?_cons, at?_cons]
    cases t.child? i with
    | none => rfl
    | some c => exact ih c

@[simp] theorem get?_nil (t : Tree) : t.get? [] = none := rfl

@[simp] theorem get?_concat (t : Tree) (p : List Nat) (last : Nat) :
    t.get? (p ++ [last]) = (t.leafAt? p).bind fun l => l.get? last := by
  simp [get?]

/-! ### Changing -/

/-- Changes the array at a path, if the path leads to one and the change applies to it. -/
def modify? (change : Tree → Option Tree) : List Nat → Tree → Option Tree
  | [], t => change t
  | _ :: _, leaf _ => none
  | i :: rest, interior n ts =>
    (ts[i]?).bind fun c => (modify? change rest c).map fun c' => interior n (ts.set i c')

/-- A change of leaves, as a change of arrays that does not apply to interior ones. -/
def onLeaf? (change : Leaf → Option Leaf) : Tree → Option Tree
  | leaf l => (change l).map leaf
  | interior _ _ => none

/-- Stores a number at a path. -/
def set? (t : Tree) (path : List Nat) (value : UInt64) : Option Tree :=
  match path.getLast? with
  | none => none
  | some last => t.modify? (onLeaf? fun l => l.set? last value) path.dropLast

/-- Puts another nested array in the place of the one at a path. -/
def replaceAt? (t : Tree) (path : List Nat) (new : Tree) : Option Tree :=
  t.modify? (fun _ => some new) path

/-- Overwrites the numbers of the leaf at a path by a progression. -/
def fillAt? (t : Tree) (path : List Nat) (value step : UInt64) : Option Tree :=
  t.modify? (onLeaf? fun l => some (l.fill value step)) path

@[simp] theorem modify?_nil (change : Tree → Option Tree) (t : Tree) :
    modify? change [] t = change t := by
  cases t <;> rfl

end Tree

end ArrayLayout
