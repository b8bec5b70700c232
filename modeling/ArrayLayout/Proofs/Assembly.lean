/-
Interior arrays and the sources of their sub-arrays.

A builder asks its source for every sub-array in turn.  What it returns is an array over the
results of these calls, in order, and nothing else; counting the calls does not change it.

* `Tree.collectFrom_eq_ok` — results of a source that does not stop;
* `Tree.buildInterior_eq_ok` — an interior array is made of such results;
* `Tree.buildOver_eq` — the builder that counts its calls, apart from the count.
-/
import ArrayLayout.Proofs.Zeros

namespace ArrayLayout

namespace Tree

/-- A source is asked once for every result, and the `i`-th result is that of the `i`-th
call. -/
theorem collectFrom_eq_ok {ε α : Type} {source : Nat → Except ε α} {start count : Nat}
    {results : List α} (run : collectFrom source start count = .ok results) :
    results.length = count ∧ ∀ i a, results[i]? = some a → source (start + i) = .ok a := by
  induction count generalizing start results with
  | zero =>
    cases run
    simp
  | succ count ih =>
    simp only [collectFrom, except_bind_eq_ok_iff] at run
    obtain ⟨first, called, rest, others, result⟩ := run
    cases result
    obtain ⟨len, each⟩ := ih others
    refine ⟨by simpa using len, ?_⟩
    intro i a found
    cases i with
    | zero =>
      obtain rfl : first = a := by simpa using found
      exact called
    | succ i =>
      have later := each i a (by simpa using found)
      rwa [Nat.add_assoc, Nat.add_comm 1] at later

/-- An interior array has as many sub-arrays as its length says, all from the source. -/
theorem buildInterior_eq_ok {extent : UInt64} {source : Nat → Except Fault Tree} {t : Tree}
    (built : buildInterior extent source = .ok t) :
    ∃ ts, t = interior extent ts ∧ ts.length = extent.toNat ∧
      ∀ i s, ts[i]? = some s → source i = .ok s := by
  simp only [buildInterior, ofExcept_except, except_bind_eq_ok_iff] at built
  obtain ⟨_, -, ts, collected, result⟩ := built
  cases result
  obtain ⟨len, each⟩ := collectFrom_eq_ok collected
  refine ⟨ts, rfl, len, ?_⟩
  intro i s found
  simpa using each i s found

/-- Counting the calls of a source leaves its results alone. -/
theorem run_collectFrom (source : Nat → Except Fault Tree) (start count calls : Nat) :
    (collectFrom (fun number => (do modify (· + 1); source number : StateT Nat (Except Fault) Tree))
      start count).run calls =
      (collectFrom source start count).map fun results => (results, calls + count) := by
  induction count generalizing start calls with
  | zero => rfl
  | succ count ih =>
    simp only [collectFrom, StateT.run_bind, StateT.run_modify, StateT.run_pure,
      StateT.run_monadLift, liftM, monadLift_self, pure_bind, bind_assoc, ih]
    cases source start with
    | error fault => rfl
    | ok t =>
      cases rest : collectFrom source (start + 1) count with
      | error fault => rfl
      | ok ts =>
        show Except.ok _ = Except.ok _
        rw [Nat.add_assoc, Nat.add_comm 1]

theorem run_ofExcept (x : Except Fault Unit) (calls : Nat) :
    (MonadExcept.ofExcept x : StateT Nat (Except Fault) Unit).run calls =
      x.map fun passed => (passed, calls) := by
  cases x <;> rfl

/-- The builder that counts its calls is the one that does not, with the count beside it. -/
theorem buildOver_eq (extent : UInt64) (shapes : List Shape) :
    buildOver extent shapes =
      (buildInterior extent fun number => build (Shape.inTurn shapes number)).map
        fun t => (t, extent.toNat) := by
  simp only [buildOver, buildInterior, StateT.run_bind, run_ofExcept, ofExcept_except,
    StateT.run_pure, run_collectFrom (fun number => build (Shape.inTurn shapes number))]
  cases checkSlots extent with
  | error fault => rfl
  | ok own =>
    cases collectFrom (fun number => build (Shape.inTurn shapes number)) 0 extent.toNat with
    | error fault => rfl
    | ok ts =>
      show Except.ok (_, 0 + _) = Except.ok (_, _)
      rw [Nat.zero_add]

end Tree

end ArrayLayout
