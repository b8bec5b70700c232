/-
Places: numbers of a tree that can be written.

A place is found by a walk of its own, down the sub-arrays that are going to be rebuilt.  It
holds the number that is there and knows the tree after another one is stored.  What can be
measured of a tree goes by the lengths and kinds of its arrays, which make up its outline, and
no number is part of that.

* `Tree.outline` — a tree without its numbers; lengths, kinds, counts and shapes are read off it;
* `Tree.outline_of_set?` — storing a number keeps it;
* `Tree.Place`, `Tree.place?` — the number at a path, to be written;
* `Tree.map_number_place?`, `Tree.set?_eq_map_place?` — reading and storing by a place;
* `Tree.place?_store`, `Tree.store_number` — a place after storing, and storing what is there;
* `Tree.place?_lawful` — places are lawful and touch nothing else.
-/
import ArrayLayout.Proofs.Paths
import ArrayLayout.Proofs.Prediction

namespace ArrayLayout

namespace Tree

variable {t t' : Tree} {path : List Nat}

/-! ### Outlines -/

/-- A tree without its numbers: leaves keep their length cells only. -/
def outline : Tree → Tree := fold (fun l => leaf ⟨[l.length]⟩) interior

/-- Kind and length of the outermost array. -/
def header (t : Tree) : Bool × UInt64 := (t.isLeaf, t.length)

@[simp] theorem outline_leaf (l : Leaf) : (leaf l).outline = leaf ⟨[l.length]⟩ := rfl

@[simp] theorem outline_interior (n : UInt64) (ts : List Tree) :
    (interior n ts).outline = interior n (ts.map outline) :=
  fold_interior ..

theorem header_outline (t : Tree) : t.outline.header = t.header := by
  cases t with
  | leaf l => rfl
  | interior n ts => rw [outline_interior]; rfl

theorem at?_outline (t : Tree) (path : List Nat) :
    t.outline.at? path = (t.at? path).map outline := by
  induction path generalizing t with
  | nil => simp
  | cons i rest ih =>
    cases t with
    | leaf l => simp [child?, children]
    | interior n ts =>
      rw [outline_interior, at?_cons, at?_cons, child?, child?, children, children,
        List.getElem?_map]
      cases ts[i]? with
      | none => rfl
      | some c => exact ih c

/-- Kinds and lengths are those of the outline, wherever a path leads. -/
theorem map_header_at? (t : Tree) (path : List Nat) :
    (t.at? path).map header = (t.outline.at? path).map header := by
  rw [at?_outline]
  cases t.at? path with
  | none => rfl
  | some s => exact congrArg some (header_outline s).symm

/-- What does not tell an array from its outline is read off a list of outlines too. -/
theorem map_outline_map {β : Type} {f : Tree → β} {ts : List Tree}
    (same : ∀ t ∈ ts, f t.outline = f t) : (ts.map outline).map f = ts.map f := by
  rw [List.map_map]
  exact List.map_congr_left same

theorem shape_outline (t : Tree) : t.outline.shape = t.shape := by
  induction t with
  | leaf l => rfl
  | interior n ts ih =>
    rw [outline_interior, shape_interior, shape_interior, map_outline_map ih]

theorem footprint_outline (t : Tree) : t.outline.footprint = t.footprint := by
  induction t with
  | leaf l => rfl
  | interior n ts ih =>
    rw [outline_interior, footprint_interior, footprint_interior, map_outline_map ih]

theorem countFrom?_outline (t : Tree) : t.outline.countFrom? = t.countFrom? := by
  induction t with
  | leaf l => rfl
  | interior n ts ih =>
    rw [outline_interior, countFrom?, fold_interior, fold_interior]
    exact congrArg (fun below (total : Footprint) => (total.addArray? n 0).bind fun total =>
      below.foldlM (fun total count => count total) total) (map_outline_map ih)

theorem conforms_outline (t : Tree) (s : Shape) : t.outline.conforms s = t.conforms s := by
  induction t generalizing s with
  | leaf l => cases s <;> rfl
  | interior n ts ih =>
    cases s with
    | nil => simp
    | cons extent inner =>
      have parts : (ts.map outline).all (fun t => t.conforms inner) =
          ts.all fun t => t.conforms inner := by
        rw [Bool.eq_iff_iff, List.all_eq_true, List.all_eq_true, List.forall_mem_map]
        exact forall₂_congr fun t part => by rw [ih t part]
      rw [outline_interior, conforms_interior_cons, conforms_interior_cons, parts]

/-- A change of a leaf that keeps its length keeps the outline of the tree. -/
theorem outline_of_onLeaf? {change : Leaf → Option Leaf}
    (keeps : ∀ l l', change l = some l' → l'.length = l.length)
    (changed : modify? (onLeaf? change) path t = some t') : t'.outline = t.outline := by
  refine modify?_rec (motive := fun s s' => s'.outline = s.outline) ?_ ?_ changed
  · intro s s' run
    obtain ⟨l, l', rfl, applied, rfl⟩ := onLeaf?_eq_some_iff.1 run
    rw [outline_leaf, outline_leaf, keeps l l' applied]
  · intro n ts i c c' child same
    rw [outline_interior, outline_interior, map_set_of_eq child same]

theorem outline_of_set? {value : UInt64} (stored : t.set? path value = some t') :
    t'.outline = t.outline := by
  obtain ⟨outer, last, rfl⟩ := exists_concat_of_set? stored
  rw [set?_concat] at stored
  exact outline_of_onLeaf? (fun _ _ => Leaf.length_set?) stored

/-! ### Places -/

/-- A number of a tree: what it is, and the tree after another number is stored for it. -/
structure Place where
  number : UInt64
  store : UInt64 → Tree

/-- The place with index `last` in the leaf at the end of a walk through interior arrays. -/
def placeFrom? (last : Nat) : Tree → (outer : List Nat) → Option Place
  | leaf l, [] =>
    (l.get? last).map fun number =>
      ⟨number, fun value => leaf ⟨l.cells.set (lengthCell + 1 + last) value⟩⟩
  | interior _ _, [] => none
  | leaf _, _ :: _ => none
  | interior n ts, i :: outer =>
    (ts[i]?).bind fun c => (placeFrom? last c outer).map fun place =>
      ⟨place.number, fun value => interior n (ts.set i (place.store value))⟩

/-- The place at a path. -/
def place? (t : Tree) (path : List Nat) : Option Place :=
  match path.getLast? with
  | none => none
  | some last => t.placeFrom? last path.dropLast

variable {last : Nat} {outer : List Nat} {place : Place}

theorem place?_concat (t : Tree) (outer : List Nat) (last : Nat) :
    t.place? (outer ++ [last]) = t.placeFrom? last outer := by
  simp [place?]

theorem placeFrom?_nil_eq_some_iff :
    t.placeFrom? last [] = some place ↔ ∃ l number, t = leaf l ∧ l.get? last = some number ∧
      place = ⟨number, fun value => leaf ⟨l.cells.set (lengthCell + 1 + last) value⟩⟩ := by
  cases t with
  | leaf l => simp [placeFrom?, eq_comm]
  | interior n ts => simp [placeFrom?]

theorem placeFrom?_cons_eq_some_iff {i : Nat} :
    t.placeFrom? last (i :: outer) = some place ↔
      ∃ n ts c inner, t = interior n ts ∧ ts[i]? = some c ∧ c.placeFrom? last outer = some inner ∧
        place = ⟨inner.number, fun value => interior n (ts.set i (inner.store value))⟩ := by
  cases t with
  | leaf l => simp [placeFrom?]
  | interior n ts =>
    simp only [placeFrom?, Option.bind_eq_some_iff, Option.map_eq_some_iff, interior.injEq]
    constructor
    · rintro ⟨c, child, inner, below, rfl⟩
      exact ⟨n, ts, c, inner, ⟨rfl, rfl⟩, child, below, rfl⟩
    · rintro ⟨_, _, c, inner, ⟨rfl, rfl⟩, child, below, rfl⟩
      exact ⟨c, child, inner, below, rfl⟩

/-- The number of a place is the one that is read. -/
theorem map_number_placeFrom? (t : Tree) (outer : List Nat) :
    (t.placeFrom? last outer).map Place.number =
      (t.leafAt? outer).bind fun l => l.get? last := by
  induction outer generalizing t with
  | nil =>
    cases t with
    | leaf l => simp [placeFrom?, leaf?, Function.comp_def]
    | interior n ts => simp [placeFrom?, leaf?]
  | cons i outer ih =>
    rw [leafAt?_cons]
    cases t with
    | leaf l => rfl
    | interior n ts =>
      rw [placeFrom?, child?, children]
      cases ts[i]? with
      | none => rfl
      | some c =>
        rw [Option.bind_some, Option.bind_some, ← ih c, Option.map_map]
        rfl

/-- Storing a number is storing it by its place. -/
theorem modify?_eq_map_placeFrom? (t : Tree) (outer : List Nat) (value : UInt64) :
    t.modify? (onLeaf? fun l => l.set? last value) outer =
      (t.placeFrom? last outer).map fun place => place.store value := by
  induction outer generalizing t with
  | nil =>
    cases t with
    | leaf l =>
      rw [modify?_nil, onLeaf?, placeFrom?, Leaf.set?, Leaf.get?]
      by_cases inside : last < l.payload.length
      · simp [inside]
      · simp [inside]
    | interior n ts => rfl
  | cons i outer ih =>
    cases t with
    | leaf l => rfl
    | interior n ts =>
      rw [modify?, placeFrom?]
      cases ts[i]? with
      | none => rfl
      | some c =>
        rw [Option.bind_some, Option.bind_some, ih c, Option.map_map, Option.map_map]
        rfl

theorem map_number_place? (t : Tree) (path : List Nat) :
    (t.place? path).map Place.number = t.get? path := by
  rcases List.eq_nil_or_concat' path with rfl | ⟨outer, last, rfl⟩
  · rfl
  · rw [place?_concat, get?_concat, map_number_placeFrom?]

theorem set?_eq_map_place? (t : Tree) (path : List Nat) (value : UInt64) :
    t.set? path value = (t.place? path).map fun place => place.store value := by
  rcases List.eq_nil_or_concat' path with rfl | ⟨outer, last, rfl⟩
  · rfl
  · rw [place?_concat, set?_concat, modify?_eq_map_placeFrom?]

/-- Storing the number that is there changes nothing. -/
theorem store_number_of_placeFrom? (found : t.placeFrom? last outer = some place) :
    place.store place.number = t := by
  induction outer generalizing t place with
  | nil =>
    obtain ⟨l, number, rfl, read, rfl⟩ := placeFrom?_nil_eq_some_iff.1 found
    rw [Leaf.get?, Leaf.payload, List.getElem?_drop] at read
    obtain ⟨bound, rfl⟩ := List.getElem?_eq_some_iff.1 read
    exact congrArg (fun cells => leaf ⟨cells⟩) (List.set_getElem_self bound)
  | cons i outer ih =>
    obtain ⟨n, ts, c, inner, rfl, child, below, rfl⟩ := placeFrom?_cons_eq_some_iff.1 found
    obtain ⟨bound, rfl⟩ := List.getElem?_eq_some_iff.1 child
    show interior n (ts.set i (inner.store inner.number)) = interior n ts
    rw [ih below, List.set_getElem_self bound]

/-- After storing a number the place holds that number, and stores as it did before. -/
theorem placeFrom?_store (found : t.placeFrom? last outer = some place) (value : UInt64) :
    (place.store value).placeFrom? last outer = some ⟨value, place.store⟩ := by
  induction outer generalizing t place with
  | nil =>
    obtain ⟨l, number, rfl, read, rfl⟩ := placeFrom?_nil_eq_some_iff.1 found
    refine placeFrom?_nil_eq_some_iff.2 ⟨_, value, rfl, ?_, ?_⟩
    · have inside : last < l.payload.length := (List.getElem?_eq_some_iff.1 read).1
      have stored : l.set? last value = some ⟨l.cells.set (lengthCell + 1 + last) value⟩ :=
        if_pos inside
      rw [Leaf.get?_of_set? stored, if_pos rfl]
    · simp only [List.set_set]
  | cons i outer ih =>
    obtain ⟨n, ts, c, inner, rfl, child, below, rfl⟩ := placeFrom?_cons_eq_some_iff.1 found
    obtain ⟨bound, -⟩ := List.getElem?_eq_some_iff.1 child
    refine placeFrom?_cons_eq_some_iff.2 ⟨n, _, _, _, rfl, List.getElem?_set_self bound, ih below, ?_⟩
    simp only [List.set_set]

theorem exists_concat_of_place? (found : t.place? path = some place) :
    ∃ outer last, path = outer ++ [last] := by
  rcases List.eq_nil_or_concat' path with rfl | split
  · cases found
  · exact split

theorem store_number (found : t.place? path = some place) : place.store place.number = t := by
  obtain ⟨outer, last, rfl⟩ := exists_concat_of_place? found
  rw [place?_concat] at found
  exact store_number_of_placeFrom? found

theorem place?_store (found : t.place? path = some place) (value : UInt64) :
    (place.store value).place? path = some ⟨value, place.store⟩ := by
  obtain ⟨outer, last, rfl⟩ := exists_concat_of_place? found
  rw [place?_concat] at found ⊢
  exact placeFrom?_store found value

/-- From `t` to `t'` the number at a path has become `value`, and that is all. -/
structure NumberStored (t t' : Tree) (path : List Nat) (value : UInt64) : Prop where
  get? : ∀ q, t'.get? q = if q = path then some value else t.get? q
  /-- The same arrays are there, of the same kinds and lengths. -/
  header : ∀ q, (t'.at? q).map header = (t.at? q).map header
  shape : t'.shape = t.shape
  footprint : t'.footprint = t.footprint
  countFrom? : ∀ total, t'.countFrom? total = t.countFrom? total
  conforms : ∀ s, t'.conforms s = t.conforms s

theorem numberStored_of_set? {value : UInt64} (stored : t.set? path value = some t') :
    NumberStored t t' path value := by
  have same := outline_of_set? stored
  refine ⟨get?_of_set? stored, fun q => ?_, ?_, ?_, fun total => ?_, fun s => ?_⟩
  · rw [map_header_at? t' q, same, ← map_header_at?]
  · rw [← shape_outline, same, shape_outline]
  · rw [← footprint_outline, same, footprint_outline]
  · rw [← countFrom?_outline, same, countFrom?_outline]
  · rw [← conforms_outline, same, conforms_outline]

/-- A path leads to a place exactly if a number can be read there, and the place holds that
number.  Storing the number that is there changes nothing.  Storing any number changes this one
number, is what storing at the path does, and leaves a place of which the same is true. -/
theorem place?_lawful (t : Tree) (path : List Nat) :
    ((t.place? path).isSome = true ↔ (t.get? path).isSome = true) ∧
    ∀ place, t.place? path = some place →
      t.get? path = some place.number ∧ place.store place.number = t ∧
      ∀ value, t.set? path value = some (place.store value) ∧
        NumberStored t (place.store value) path value ∧
        (place.store value).place? path = some ⟨value, place.store⟩ := by
  refine ⟨?_, fun place found => ⟨?_, store_number found, fun value => ?_⟩⟩
  · rw [← map_number_place?, Option.isSome_map]
  · rw [← map_number_place?, found, Option.map_some]
  · have stored : t.set? path value = some (place.store value) := by
      rw [set?_eq_map_place?, found, Option.map_some]
    exact ⟨stored, numberStored_of_set? stored, place?_store found value⟩

/-- A number in an uneven tree. -/
theorem place?_uneven :
    let rows := interior 2 [.leaf ⟨[3, 5, 0, 7]⟩, .interior 1 [.leaf ⟨[2, 8, 9]⟩]]
    let place : Place := ⟨9, fun value =>
      interior 2 [.leaf ⟨[3, 5, 0, 7]⟩, .interior 1 [.leaf ⟨[2, 8, value]⟩]]⟩
    rows.place? [1, 0, 1] = some place ∧ rows.get? [1, 0, 1] = some 9 ∧
      ∀ value, NumberStored rows (place.store value) [1, 0, 1] value := by
  intro rows place
  have found : rows.place? [1, 0, 1] = some place := rfl
  obtain ⟨read, -, stores⟩ := (place?_lawful rows [1, 0, 1]).2 place found
  exact ⟨found, read, fun value => (stores value).2.1⟩

end Tree

end ArrayLayout
