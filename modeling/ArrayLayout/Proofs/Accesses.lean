/-
Accesses to memory while a nested array is given back.

`Heap.release?` says what memory is like afterwards.  Here the same is done one access at a
time, and with a log: an element is read just before the sub-array behind it is given back, when
the sub-arrays before it are gone already.  A log of this kind shows the order of things, and
what is touched in which order is all that matters for arrays that must not be touched any more.

* `Access`, `Access.CanPrecede` — one access, and that an array is not touched once it is freed;
* `Access.count_free_le_one` — then no array is freed twice;
* `Heap.releaseLog?` — giving back with a log of all accesses;
* `Heap.extends_of_release?` — giving back changes no block that it does not free;
* `Heap.map_snd_releaseLog?` — apart from the log, it is `Heap.release?`.
-/
import ArrayLayout.Heap.Release
import ArrayLayout.Proofs.Readback

namespace ArrayLayout

/-- What is done with an array while a nested array is given back. -/
inductive Access where
  /-- Its length or one of its elements is read. -/
  | read (array : Ref)
  /-- Its block is freed, as one of this many bytes. -/
  | free (array : Ref) (bytes : Nat)
  deriving DecidableEq

namespace Access

/-- The array that an access is about. -/
def array : Access → Ref
  | read array => array
  | free array _ => array

/-- Whether `y` may come after `x`: it is not about an array that `x` frees. -/
def CanPrecede (x y : Access) : Prop := ∀ bytes, x ≠ .free y.array bytes

/-- In an orderly log, no array is freed twice. -/
theorem count_free_le_one {log : List Access} (ordered : log.Pairwise CanPrecede) (r : Ref)
    (bytes : Nat) : log.count (.free r bytes) ≤ 1 := by
  induction log with
  | nil => simp
  | cons x log ih =>
    obtain ⟨first, rest⟩ := List.pairwise_cons.1 ordered
    by_cases same : x = .free r bytes
    · subst same
      have never : log.count (.free r bytes) = 0 :=
        List.count_eq_zero.2 fun again => first _ again bytes rfl
      rw [List.count_cons_self, never]
    · rw [List.count_cons_of_ne same]
      exact ih rest

end Access

namespace Heap

/-! ### Giving back with a log -/

/-- Gives back `count` sub-arrays of an array, from element `start` on.  Each element is read
when its turn comes. -/
def releaseElements? (release : Ref → Heap → Option (List Access × Heap)) (array : Ref)
    (start : Nat) : (count : Nat) → Heap → Option (List Access × Heap)
  | 0, h => some ([], h)
  | count + 1, h => do
    let sub ← h.follow? array [start]
    let (below, h') ← release sub h
    let (rest, h'') ← releaseElements? release array (start + 1) count h'
    return (.read array :: below ++ rest, h'')

/-- Gives the nested array of `rank` dimensions at a reference back, with a log of all
accesses. -/
def releaseLog? : (rank : Nat) → Ref → Heap → Option (List Access × Heap)
  | 0, _, _ => none
  | 1, r, h => do
    let length ← h.length? r
    let h' ← h.freeArray? r length
    return ([.read r, .free r (cellBytes * (length.toNat + 1))], h')
  | rank + 2, r, h => do
    let length ← h.length? r
    let (below, rest) ← releaseElements? (releaseLog? (rank + 1)) r 0 length.toNat h
    let h' ← rest.freeArray? r length
    return (.read r :: below ++ [.free r (cellBytes * (length.toNat + 1))], h')

/-! ### What giving back leaves alone -/

variable {h h' : Heap} {r : Ref} {rank : Nat}

theorem extends_trans {h₁ h₂ h₃ : Heap} (one : h₁.Extends h₂) (two : h₂.Extends h₃) :
    h₁.Extends h₃ :=
  fun s cells live => two s cells (one s cells live)

theorem extends_of_free? {bytes : Nat} (freed : h.free? r bytes = some h') : h'.Extends h := by
  intro s cells live
  by_cases same : s = r
  · subst same
    rw [block?_free?_self freed] at live
    cases live
  · rwa [block?_free?_of_ne freed same] at live

theorem extends_of_foldlM {release : Ref → Heap → Option Heap} {subs : List Ref}
    (each : ∀ s h h', release s h = some h' → h'.Extends h)
    (released : subs.foldlM (fun h s => release s h) h = some h') : h'.Extends h := by
  induction subs generalizing h with
  | nil =>
    obtain rfl : h = h' := by simpa using released
    exact fun _ _ live => live
  | cons s subs ih =>
    rw [List.foldlM_cons, Option.bind_eq_bind, Option.bind_eq_some_iff] at released
    obtain ⟨h₁, first, rest⟩ := released
    exact extends_trans (ih rest) (each s h h₁ first)

/-- Whatever is live after a nested array was given back was live before, with the same
cells. -/
theorem extends_of_release? (released : release? rank r h = some h') : h'.Extends h := by
  induction rank using Nat.strong_induction_on generalizing r h h' with
  | _ rank ih =>
    match rank with
    | 0 => cases released
    | 1 =>
      simp only [release?, Option.bind_eq_bind, Option.bind_eq_some_iff] at released
      obtain ⟨length, -, freed⟩ := released
      exact extends_of_free? freed
    | rank + 2 =>
      simp only [release?, Option.bind_eq_bind, Option.bind_eq_some_iff] at released
      obtain ⟨length, -, subs, -, rest, below, freed⟩ := released
      refine extends_trans (extends_of_free? freed) (extends_of_foldlM ?_ below)
      intro s h h' run
      exact ih (rank + 1) (by omega) run

/-! ### The log is only a log -/

theorem freeArray?_of_dead (dead : h.block? r = none) (length : UInt64) :
    h.freeArray? r length = none := by
  rw [freeArray?, free?, dead]

theorem follow?_of_dead (dead : h.block? r = none) (i : Nat) (path : List Nat) :
    h.follow? r (i :: path) = none := by
  rw [follow?_cons, payload?, cells?, dead]
  rfl

theorem payload?_congr (same : h'.block? r = h.block? r) : h'.payload? r = h.payload? r := by
  rw [payload?, payload?, cells?, cells?, length?, length?, same]

/-- One step from an array leads to where the element refers to. -/
theorem follow?_singleton {elements : List Cell} {i : Nat} {c : Cell}
    (payload : h.payload? r = some elements) (element : elements[i]? = some c) :
    h.follow? r [i] = c.ref? := by
  rw [follow?_cons, payload, Option.bind_some, element, Option.bind_some]
  cases c.ref? <;> rfl

/-- An array has as many elements as its length says. -/
theorem length_of_payload? {n : UInt64} {elements : List Cell} (len : h.length? r = some n)
    (payload : h.payload? r = some elements) : elements.length = n.toNat := by
  obtain ⟨cells, read, rfl⟩ := Option.map_eq_some_iff.1 payload
  obtain ⟨m, rest, block, within⟩ := exists_block?_of_cells? read
  obtain ⟨len', read', -⟩ := read_of_block block within
  obtain rfl : n = m := Option.some_inj.1 (len.symm.trans len')
  obtain rfl := Option.some_inj.1 (read.symm.trans read')
  simpa [lengthCell] using within

/-- An array whose elements cannot be read has a length that is not zero. -/
theorem exists_succ_of_payload? {n : UInt64} (len : h.length? r = some n)
    (payload : h.payload? r = none) : ∃ count, n.toNat = count + 1 := by
  refine Nat.exists_eq_succ_of_ne_zero ?_
  intro zero
  simp only [length?, Option.bind_eq_bind, Option.bind_eq_some_iff] at len
  obtain ⟨cells, block, first, there, number⟩ := len
  obtain ⟨bound, -⟩ := List.getElem?_eq_some_iff.1 there
  have fits : n.toNat + 1 ≤ cells.length := by
    rw [lengthCell] at bound
    omega
  have len : h.length? r = some n := by
    simp [length?, block, there, number]
  have out : ¬n.toNat + 1 ≤ cells.length := by
    simpa [payload?, cells?, block, len] using payload
  exact out fits

/-- Once the array itself is gone, nothing more can be given back of it. -/
theorem foldlM_of_dead {release : Ref → Heap → Option Heap}
    (shrinks : ∀ s h h', release s h = some h' → h'.Extends h) (dead : h.block? r = none)
    (subs : List Ref) (length : UInt64) :
    ((subs.foldlM (fun h s => release s h) h).bind fun rest => rest.freeArray? r length) = none := by
  rw [Option.bind_eq_none_iff]
  intro rest released
  refine freeArray?_of_dead ?_ length
  cases block : rest.block? r with
  | none => rfl
  | some cells =>
    have live := extends_of_foldlM shrinks released r cells block
    rw [dead] at live
    cases live

theorem bind_mapM_ref?_cons {α : Type} {c : Cell} {s : Ref} (ref : c.ref? = some s)
    (cells : List Cell) (next : List Ref → Option α) :
    ((c :: cells).mapM Cell.ref?).bind next =
      (cells.mapM Cell.ref?).bind fun subs => next (s :: subs) := by
  rw [List.mapM_cons, ref]
  cases cells.mapM Cell.ref? <;> rfl

/-- It makes no difference whether the elements of an array are read one by one, while its
sub-arrays are given back, or all of them before. -/
theorem bind_releaseElements? {release : Ref → Heap → Option (List Access × Heap)}
    {plain : Ref → Heap → Option Heap} (same : ∀ s h, (release s h).map Prod.snd = plain s h)
    (shrinks : ∀ s h h', plain s h = some h' → h'.Extends h) (length : UInt64)
    {h₁ : Heap} {elements : List Cell} {start count : Nat} (payload : h.payload? r = some elements)
    (all : start + count = elements.length)
    (state : h₁.block? r = none ∨ h₁.block? r = h.block? r) :
    ((releaseElements? release r start count h₁).bind fun x => x.2.freeArray? r length) =
      ((elements.drop start).mapM Cell.ref?).bind fun subs =>
        (subs.foldlM (fun h s => plain s h) h₁).bind fun rest => rest.freeArray? r length := by
  induction count generalizing start h₁ with
  | zero =>
    rw [List.drop_of_length_le (by omega)]
    rfl
  | succ count ih =>
    rcases state with dead | alive
    · have gone := foldlM_of_dead shrinks dead
      simp only [gone, Option.bind_fun_none]
      rw [releaseElements?, follow?_of_dead dead]
      rfl
    · have bound : start < elements.length := by omega
      have element : h₁.follow? r [start] = elements[start].ref? :=
        follow?_singleton ((payload?_congr alive).trans payload) (List.getElem?_eq_getElem bound)
      rw [List.drop_eq_getElem_cons bound, releaseElements?, element]
      cases ref : elements[start].ref? with
      | none =>
        rw [List.mapM_cons, ref]
        rfl
      | some sub =>
        rw [bind_mapM_ref?_cons ref]
        simp only [List.foldlM_cons]
        cases run : release sub h₁ with
        | none =>
          have one : plain sub h₁ = none := by
            rw [← same, run]
            rfl
          simp [run, one]
        | some done =>
          obtain ⟨below, h₂⟩ := done
          have one : plain sub h₁ = some h₂ := by
            rw [← same, run]
            rfl
          -- the array is as it was, or it was a part of its own sub-array
          have state : h₂.block? r = none ∨ h₂.block? r = h.block? r := by
            cases block : h₂.block? r with
            | none => exact .inl rfl
            | some cells => exact .inr ((shrinks sub h₁ h₂ one r cells block).symm.trans alive)
          have rest := ih (by omega : start + 1 + count = elements.length) state
          simp only [Option.bind_eq_bind, one, Option.bind_some, ← rest]
          simp [run, Option.bind_assoc]

/-- Giving a nested array back access by access, with a log, is giving it back. -/
theorem map_snd_releaseLog? (rank : Nat) (r : Ref) (h : Heap) :
    (releaseLog? rank r h).map Prod.snd = release? rank r h := by
  induction rank using Nat.strong_induction_on generalizing r h with
  | _ rank ih =>
    match rank with
    | 0 => rfl
    | 1 =>
      rw [releaseLog?, release?]
      cases h.length? r with
      | none => rfl
      | some length => simp
    | rank + 2 =>
      rw [releaseLog?, release?, children?]
      cases len : h.length? r with
      | none => rfl
      | some length =>
        simp only [Option.bind_eq_bind, Option.bind_some, Option.map_bind]
        cases payload : h.payload? r with
        | none =>
          obtain ⟨count, more⟩ := exists_succ_of_payload? len payload
          rw [more, releaseElements?, follow?_cons, payload]
          rfl
        | some elements =>
          have below := bind_releaseElements? (ih (rank + 1) (by omega))
            (fun s h h' => extends_of_release?) length payload
            (by rw [length_of_payload? len payload, Nat.zero_add]) (.inr rfl)
          rw [List.drop_zero] at below
          simpa [Function.comp_def] using below

end Heap

end ArrayLayout
