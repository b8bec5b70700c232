/-
Lengths stay true, whatever is done to named trees.

Nothing that changes a tree can reach a length cell: numbers are stored after it, and an
array takes its length from the builder that also made its elements.  Trees may become
uneven on the way, and leaves may come to stand next to interior arrays.

* `Leaf.overwrite?` — new numbers for a leaf;
* `Edit` — what can be done to named trees; `Edit.apply` — the trees after it;
* `Edit.Sound` — all named trees have true lengths;
* `Edit.sound_apply` — no edit changes that, and `Edit.sound_after` — no run of edits does;
* `Edit.trueLength_after` — what that says about every single array.
-/
import ArrayLayout.Heap.Read
import ArrayLayout.Proofs.Admission
import ArrayLayout.Proofs.Assembly
import ArrayLayout.Proofs.Paths
import ArrayLayout.Proofs.Readback
import ArrayLayout.Session.Trees

namespace ArrayLayout

namespace Leaf

/-- Puts new numbers in the place of all numbers of a leaf, one for each. -/
def overwrite? (l : Leaf) (numbers : List UInt64) : Option Leaf :=
  if numbers.length = l.payload.length then some ⟨l.cells.take (lengthCell + 1) ++ numbers⟩
  else none

variable {l l' : Leaf}

theorem wellFormed_of_overwrite? {numbers : List UInt64}
    (written : l.overwrite? numbers = some l') (sound : l.WellFormed) : l'.WellFormed := by
  unfold overwrite? at written
  split at written
  · rename_i same
    cases written
    rw [sound.length_payload] at same
    rw [sound.cells_eq]
    simp [WellFormed, lengthCell, same]
  · cases written

/-- Filling a leaf is overwriting it by a progression. -/
theorem overwrite?_progression (l : Leaf) (value step : UInt64) :
    l.overwrite? (progression value step l.payload.length) = some (l.fill value step) := by
  rw [overwrite?, if_pos (length_progression ..), fill]

end Leaf

/-- The array at a path of a name.  Where there is none, an empty leaf. -/
def partOf (trees : Names Tree) (source : String × List Nat) : Tree :=
  ((trees.find? source.1).bind fun t => t.at? source.2).getD (.leaf (.zeros 0))

/-- Something done to named trees. -/
inductive Edit where
  /-- A step on named trees: they are built, copied, stored into and put into each other. -/
  | step (action : TreeStep)
  /-- Builds a leaf. -/
  | buildLeaf (target : String) (extent : UInt64)
  /-- Builds an interior array over copies of arrays that have been made before. -/
  | assemble (target : String) (extent : UInt64) (source : Nat → String × List Nat)
  /-- Copies a nested array out of memory, whatever this memory holds. -/
  | copyOut (target : String) (h : Heap) (rank : Nat) (root : Ref)
  /-- Overwrites all numbers of a leaf. -/
  | overwrite (name : String) (path : List Nat) (numbers : List UInt64)

namespace Edit

/-- Named trees after an edit.  Nothing changes if it stops, or does not apply. -/
def apply (trees : Names Tree) : Edit → Names Tree
  | step action => (action.run trees).result.1
  | buildLeaf target extent =>
    (TreeStep.keep trees target (((Leaf.build extent).map Tree.leaf).mapError .stopped)).1
  | assemble target extent source =>
    let built : Except Fault Tree :=
      Tree.buildInterior extent fun number => .ok (partOf trees (source number))
    (TreeStep.keep trees target (built.mapError .stopped)).1
  | copyOut target h rank root =>
    match h.readTree rank root with
    | .ok (some t) => trees.insert target t
    | _ => trees
  | overwrite name path numbers =>
    (TreeStep.update trees name
      (Tree.modify? (Tree.onLeaf? fun l => l.overwrite? numbers) path)
      fun _ _ after => .listing after).1

/-- Named trees after a run of edits that starts with nothing. -/
def after (edits : List Edit) : Names Tree := edits.foldl apply .empty

/-- The lengths in all named trees are true. -/
def Sound (trees : Names Tree) : Prop := ∀ name t, trees.find? name = some t → t.WellFormed

variable {trees : Names Tree} {name : String} {t : Tree}

theorem sound_empty : Sound .empty := by
  intro name t found
  cases found

theorem sound_insert (sound : Sound trees) (here : t.WellFormed) :
    Sound (trees.insert name t) := by
  intro other u found
  by_cases same : other = name
  · subst same
    rw [Names.find?_insert_self, Option.some_inj] at found
    exact found ▸ here
  · rw [Names.find?_insert_of_ne trees t same] at found
    exact sound other u found

theorem sound_ask (sound : Sound trees) (reply : Tree → Reply) :
    Sound (TreeStep.ask trees name reply).1 := by
  intro other u found
  rw [TreeStep.find?_ask] at found
  exact sound other u found

theorem sound_keep (sound : Sound trees) {fault : Fault → Failure} {built : Except Fault Tree}
    (here : ∀ t, built = .ok t → t.WellFormed) :
    Sound (TreeStep.keep trees name (built.mapError fault)).1 := by
  cases built with
  | error fault => exact sound
  | ok t => exact sound_insert sound (here t rfl)

theorem sound_update (sound : Sound trees) {change : Tree → Option Tree}
    (keeps : ∀ t t', change t = some t' → t.WellFormed → t'.WellFormed)
    (reply : Bool → Tree → Tree → Reply) :
    Sound (TreeStep.update trees name change reply).1 := by
  unfold TreeStep.update
  split
  · exact sound
  · rename_i t found
    split
    · exact sound
    · rename_i t' changed
      exact sound_insert sound (keeps t t' changed (sound name t found))

/-! ### Where trees come from -/

theorem wellFormed_of_build {shape : Shape} (built : Tree.build shape = .ok t) :
    t.WellFormed := by
  obtain ⟨passed, rfl⟩ := Tree.build_eq_ok_iff.1 built
  exact Tree.wellFormed_zeros (Shape.ne_nil_of_check passed)

theorem wellFormed_of_tryBuild {limits : Limits} {request : List Int64}
    (built : (Tree.tryBuild limits request).result = .ok t) : t.WellFormed := by
  obtain ⟨s, f, accepted, rfl⟩ := Tree.accept_of_tryBuild built
  exact Tree.wellFormed_zeros (Limits.shape_of_accept accepted).1

theorem wellFormed_of_buildInterior {extent : UInt64} {source : Nat → Except Fault Tree}
    (sources : ∀ i s, source i = .ok s → s.WellFormed)
    (built : Tree.buildInterior extent source = .ok t) : t.WellFormed := by
  obtain ⟨ts, rfl, count, each⟩ := Tree.buildInterior_eq_ok built
  refine (Tree.wellFormed_interior extent ts).2 ⟨count, ?_⟩
  intro s part
  obtain ⟨i, found⟩ := List.mem_iff_getElem?.1 part
  exact sources i s (each i s found)

theorem wellFormed_of_buildOver {extent : UInt64} {shapes : List Shape}
    (built : (Tree.buildOver extent shapes).map Prod.fst = .ok t) : t.WellFormed := by
  rw [Tree.buildOver_eq] at built
  cases made : Tree.buildInterior extent fun number =>
      Tree.build (Shape.inTurn shapes number) with
  | error fault =>
    rw [made] at built
    cases built
  | ok t' =>
    rw [made] at built
    cases built
    refine wellFormed_of_buildInterior ?_ made
    intro i s built
    exact wellFormed_of_build built

theorem wellFormed_partOf (sound : Sound trees) (source : String × List Nat) :
    (partOf trees source).WellFormed := by
  unfold partOf
  cases found : (trees.find? source.1).bind fun t => t.at? source.2 with
  | none => exact Leaf.wellFormed_zeros 0
  | some s =>
    obtain ⟨t, named, led⟩ := Option.bind_eq_some_iff.1 found
    exact Tree.wellFormed_of_at? led (sound source.1 t named)

theorem wellFormed_of_overwrite {path : List Nat} {numbers : List UInt64} {t' : Tree}
    (written : Tree.modify? (Tree.onLeaf? fun l => l.overwrite? numbers) path t = some t')
    (sound : t.WellFormed) : t'.WellFormed :=
  Tree.wellFormed_of_onLeaf? (fun _ _ => Leaf.wellFormed_of_overwrite?) written sound

theorem wellFormed_of_fillAt? {path : List Nat} {value step : UInt64} {t' : Tree}
    (filled : t.fillAt? path value step = some t') (sound : t.WellFormed) : t'.WellFormed := by
  refine Tree.wellFormed_of_onLeaf? ?_ filled sound
  rintro l _ ⟨⟩ sound
  exact Leaf.wellFormed_of_overwrite? (l.overwrite?_progression value step) sound

theorem wellFormed_of_replaceAt? {path : List Nat} {new t' : Tree}
    (replaced : t.replaceAt? path new = some t') (here : new.WellFormed) (sound : t.WellFormed) :
    t'.WellFormed := by
  refine Tree.wellFormed_of_modify? ?_ replaced sound
  intro s s' run _
  cases run
  exact here

/-! ### One edit and many -/

/-- A step on named trees keeps their lengths true. -/
theorem sound_run (sound : Sound trees) (action : TreeStep) :
    Sound (action.run trees).result.1 := by
  cases action with
  | build target shape =>
    refine sound_keep sound ?_
    intro t built
    exact wellFormed_of_build built
  | tryBuild target request limits =>
    show Sound (TreeStep.keep trees target (Tree.tryBuild limits request).result).1
    cases built : (Tree.tryBuild limits request).result with
    | error failure => exact sound
    | ok t => exact sound_insert sound (wellFormed_of_tryBuild built)
  | buildOver target extent shapes =>
    refine sound_keep sound ?_
    intro t built
    exact wellFormed_of_buildOver built
  | copy name target =>
    simp only [TreeStep.run]
    split
    · exact sound
    · rename_i t found
      exact sound_insert sound (sound name t found)
  | set name path value =>
    refine sound_update sound ?_ _
    intro t t' stored
    exact Tree.wellFormed_of_set? stored
  | fill name path value step =>
    refine sound_update sound ?_ _
    intro t t' filled
    exact wellFormed_of_fillAt? filled
  | graft name path source sourcePath =>
    simp only [TreeStep.run]
    split
    · exact sound
    · rename_i u found
      refine sound_update sound ?_ _
      intro t t' grafted
      obtain ⟨new, led, replaced⟩ := Option.bind_eq_some_iff.1 grafted
      exact wellFormed_of_replaceAt? replaced (Tree.wellFormed_of_at? led (sound source u found))
  | compare name other =>
    simp only [TreeStep.run]
    split
    · exact sound
    · exact sound_ask sound _
  | countLeaves names =>
    simp only [TreeStep.run]
    split <;> exact sound
  -- all other steps only ask
  | report | get | leafAt | inspect | conforms | assertZero | assertZeroedShape =>
    exact sound_ask sound _

theorem sound_apply (sound : Sound trees) (e : Edit) : Sound (e.apply trees) := by
  cases e with
  | step action => exact sound_run sound action
  | buildLeaf target extent =>
    refine sound_keep sound ?_
    intro t built
    exact wellFormed_of_build (show Tree.build [extent] = .ok t from built)
  | assemble target extent source =>
    refine sound_keep sound ?_
    intro t built
    refine wellFormed_of_buildInterior ?_ built
    intro i s part
    cases part
    exact wellFormed_partOf sound (source i)
  | copyOut target h rank root =>
    simp only [apply]
    split
    · rename_i t read
      refine sound_insert sound ?_
      unfold Heap.readTree at read
      split at read
      · cases read
      · exact Heap.wellFormed_of_tree? (Except.ok.inj read)
    · exact sound
  | overwrite name path numbers =>
    refine sound_update sound ?_ _
    intro t t' written
    exact wellFormed_of_overwrite written

theorem sound_foldl (edits : List Edit) (sound : Sound trees) :
    Sound (edits.foldl apply trees) := by
  induction edits generalizing trees with
  | nil => exact sound
  | cons e edits ih => exact ih (sound_apply sound e)

theorem sound_after (edits : List Edit) : Sound (after edits) :=
  sound_foldl edits sound_empty

end Edit

/-- What the length cell of the outermost array has to say.  A leaf has at least that cell,
and it counts the numbers of the leaf; an interior array counts its sub-arrays. -/
def Tree.TrueLength : Tree → Prop
  | leaf l => ∃ n, l.cells[lengthCell]? = some n ∧ n.toNat = l.payload.length
  | interior n ts => n.toNat = ts.length

theorem Tree.WellFormed.trueLength {t : Tree} (sound : t.WellFormed) : t.TrueLength := by
  cases t with
  | leaf l =>
    have sound : l.WellFormed := sound
    refine ⟨l.length, ?_, sound.length_payload.symm⟩
    rw [sound.cells_eq]
    rfl
  | interior n ts => exact ((wellFormed_interior n ts).1 sound).1.symm

/-- After any run of edits, every array in every named tree has a true length. -/
theorem Edit.trueLength_after (edits : List Edit) {name : String} {t s : Tree}
    {path : List Nat} (found : (after edits).find? name = some t) (led : t.at? path = some s) :
    s.TrueLength := by
  have sound := sound_after edits name t found
  exact (Tree.wellFormed_of_at? led sound).trueLength

namespace Edit

/-- A leaf takes the place of a row of another length, and an array is made that has the
rows next to a leaf.  At last all numbers of one row are overwritten by large ones. -/
def uneven : List Edit :=
  [.step (.build "rows" [2, 2]), .buildLeaf "long" 3, .step (.graft "rows" [1] "long" []),
    .assemble "mixed" 2 fun number => if number = 0 then ("rows", []) else ("long", []),
    .overwrite "mixed" [0, 1] [18446744073709551615, 0, 5]]

theorem trueLength_uneven :
    let mixed := Tree.interior 2
      [.interior 2 [.leaf ⟨[2, 0, 0]⟩, .leaf ⟨[3, 18446744073709551615, 0, 5]⟩],
        .leaf ⟨[3, 0, 0, 0]⟩]
    let row := Tree.leaf ⟨[3, 18446744073709551615, 0, 5]⟩
    (after uneven).find? "mixed" = some mixed ∧ mixed.at? [0, 1] = some row ∧
      row.TrueLength := by
  intro mixed row
  have found : (after uneven).find? "mixed" = some mixed := rfl
  have led : mixed.at? [0, 1] = some row := rfl
  exact ⟨found, led, trueLength_after uneven found led⟩

end Edit

end ArrayLayout
