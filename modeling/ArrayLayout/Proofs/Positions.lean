/-
One change at many places of a tree.

Where arrays in memory are shared, one write shows at every place of the nested array from
which a path leads to the written array.  A place is a path from the root.

* `Tree.changeWhere` — a change of the arrays at all picked paths, and of no others;
* `Tree.changeWhere_of_none`, `Tree.changeWhere_of_root` — no path is picked, or only the
  empty one;
* `Tree.at?_changeWhere` — the array at a path that no picked path is a part of.
-/
import ArrayLayout.Tree.Path

namespace ArrayLayout

namespace Tree

/-- The tree in which the array at every picked path is replaced by what `change` makes of
it.  Below a picked path others may be picked, and these come first. -/
def changeWhere (change : Tree → Tree) : Tree → (pick : List Nat → Bool) → Tree :=
  fold (fun l pick => if pick [] then change (leaf l) else leaf l)
    (fun n below pick =>
      let t := interior n (below.mapIdx fun i part => part fun path => pick (i :: path))
      if pick [] then change t else t)

variable {change : Tree → Tree} {pick : List Nat → Bool} {t : Tree} {path : List Nat}

@[simp] theorem changeWhere_leaf (change : Tree → Tree) (l : Leaf) (pick : List Nat → Bool) :
    (leaf l).changeWhere change pick = if pick [] then change (leaf l) else leaf l := rfl

@[simp] theorem changeWhere_interior (change : Tree → Tree) (n : UInt64) (ts : List Tree)
    (pick : List Nat → Bool) :
    (interior n ts).changeWhere change pick =
      let t := interior n (ts.mapIdx fun i s => s.changeWhere change fun path => pick (i :: path))
      if pick [] then change t else t := by
  have parts : ((ts.map fun s => s.changeWhere change).mapIdx fun i part =>
      part fun path => pick (i :: path)) =
        ts.mapIdx fun i s => s.changeWhere change fun path => pick (i :: path) := by
    refine List.ext_getElem? fun i => ?_
    simp [Function.comp_def]
  rw [← parts, changeWhere, fold_interior]

theorem mapIdx_eq_self {f : Nat → Tree → Tree} {ts : List Tree}
    (each : ∀ i s, ts[i]? = some s → f i s = s) : ts.mapIdx f = ts := by
  refine List.ext_getElem? fun i => ?_
  rw [List.getElem?_mapIdx]
  cases part : ts[i]? with
  | none => rfl
  | some s => rw [Option.map_some, each i s part]

theorem changeWhere_of_none (nowhere : ∀ path, pick path = false) :
    t.changeWhere change pick = t := by
  induction t generalizing pick with
  | leaf l => simp [nowhere]
  | interior n ts ih =>
    have same : (ts.mapIdx fun i s => s.changeWhere change fun path => pick (i :: path)) = ts := by
      refine mapIdx_eq_self ?_
      intro i s part
      exact ih s (List.mem_of_getElem? part) fun path => nowhere (i :: path)
    simp [same, nowhere []]

theorem changeWhere_of_root (here : pick [] = true)
    (below : ∀ i path, pick (i :: path) = false) : t.changeWhere change pick = change t := by
  cases t with
  | leaf l => simp [here]
  | interior n ts =>
    have same : (ts.mapIdx fun i s => s.changeWhere change fun path => pick (i :: path)) = ts := by
      refine mapIdx_eq_self ?_
      intro i s _
      exact changeWhere_of_none (below i)
    simp [here, same]

/-- Where no part of a path is picked, apart from the path as a whole, that path leads to the
same array with the changes inside of it. -/
theorem at?_changeWhere (apart : ∀ p q, path = p ++ q → q ≠ [] → pick p = false) :
    (t.changeWhere change pick).at? path =
      (t.at? path).map fun s => s.changeWhere change fun q => pick (path ++ q) := by
  induction path generalizing t pick with
  | nil => simp
  | cons i rest ih =>
    have start : pick [] = false := apart [] (i :: rest) rfl (by simp)
    cases t with
    | leaf l => simp [start, child?, children]
    | interior n ts =>
      simp only [changeWhere_interior, start, Bool.false_eq_true, if_false, at?_cons, child?,
        children, List.getElem?_mapIdx]
      cases ts[i]? with
      | none => rfl
      | some c =>
        refine ih ?_
        intro p q split rest
        exact apart (i :: p) q (by rw [split, List.cons_append]) rest

end Tree

end ArrayLayout
