/-
Interior arrays over sub-arrays from a source with a state.

A builder of an interior array does not say which sub-array it wants, it only calls its source
once more.  So what it gets depends on the calls before, and a source may return something else
each time.  The order of the calls, and how many there are, can be seen in its state, which
outlasts a call that stops.

* `SourceM` — computations with a state that outlasts a fault;
* `SourceM.counted`, `Heap.counted` — a source whose calls are counted;
* `Tree.Supplies`, `Heap.Supplies` — call number `k` of a source builds shape number `k`;
* `Tree.Supplies.call_buildInterior`, `Tree.Supplies.call_buildInterior_of_stop` — what the
  builder of trees makes of such a source, and where it stops;
* `Heap.Supplies.run_enterFrom`, `Heap.Supplies.run_buildInterior` — the builder in memory, whose
  array is half filled while its source is called;
* `buildInterior_follows_source` — both, with the number of calls.
-/
import ArrayLayout.Proofs.Agreement

namespace ArrayLayout

variable {σ α β : Type}

/-- Computations that may stop, with a state that is kept if they do. -/
abbrev SourceM (σ : Type) := ExceptT Fault (StateM σ)

namespace SourceM

/-- The result of a source for a state, and the state after that. -/
def call (source : SourceM σ α) (s : σ) : Except Fault α × σ := source.run.run s

/-- The same source, with a count of its calls next to its state. -/
def counted (source : SourceM σ α) : SourceM (σ × Nat) α :=
  ExceptT.mk fun (s, calls) => ((source.call s).1, ((source.call s).2, calls + 1))

theorem call_counted (source : SourceM σ α) (s : σ) (calls : Nat) :
    source.counted.call (s, calls) = ((source.call s).1, ((source.call s).2, calls + 1)) := rfl

variable {x : SourceM σ α} {f : α → SourceM σ β} {s s' : σ} {a : α} {fault : Fault}

theorem call_bind_of_ok (ran : x.call s = (.ok a, s')) : (x >>= f).call s = (f a).call s' := by
  have inside : x.run.run s = (.ok a, s') := ran
  rw [call, ExceptT.run_bind, StateT.run_bind, inside]
  rfl

theorem call_bind_of_error (ran : x.call s = (.error fault, s')) :
    (x >>= f).call s = (.error fault, s') := by
  have inside : x.run.run s = (.error fault, s') := ran
  rw [call, ExceptT.run_bind, StateT.run_bind, inside]
  rfl

theorem call_pure (a : α) (s : σ) : (pure a : SourceM σ α).call s = (.ok a, s) := rfl

theorem call_ofExcept (x : Except Fault α) (s : σ) :
    (MonadExcept.ofExcept x : SourceM σ α).call s = (x, s) := by
  cases x <;> rfl

end SourceM

/-! ### Trees -/

namespace Tree

/-- A source that is ready for call number `k`, counted from zero, builds the tree of shape
number `k` in that call, and is ready for the next one. -/
def Supplies (ready : Nat → σ → Prop) (source : SourceM σ Tree) (shapes : Nat → Shape) : Prop :=
  ∀ k s, ready k s → ∃ s', source.call s = (build (shapes k), s') ∧ ready (k + 1) s'

variable {ready : Nat → σ → Prop} {source : SourceM σ Tree} {shapes : Nat → Shape} {s : σ}
  {extent : UInt64} {start count j : Nat} {fault : Fault}

/-- A source that is counted is ready for the call whose number the count says. -/
theorem Supplies.counted (supplies : Supplies ready source shapes) :
    Supplies (fun k (s : σ × Nat) => ready k s.1 ∧ s.2 = k) source.counted shapes := by
  rintro k ⟨s, _⟩ ⟨isReady, rfl⟩
  obtain ⟨s', called, isReady'⟩ := supplies _ s isReady
  refine ⟨(s', _), ?_, isReady', rfl⟩
  rw [SourceM.call_counted, called]

/-- The source that builds the given shapes, one per call.  It knows its calls by counting them. -/
def sourceOf (shapes : Nat → Shape) : SourceM Nat Tree := do
  let k ← getModify (· + 1)
  MonadExcept.ofExcept (build (shapes k))

theorem supplies_sourceOf (shapes : Nat → Shape) :
    Supplies (fun k s => s = k) (sourceOf shapes) shapes := by
  rintro _ k rfl
  have counts : (getModify (· + 1) : SourceM Nat Nat).call k = (.ok k, k + 1) := rfl
  refine ⟨k + 1, ?_, rfl⟩
  rw [sourceOf, SourceM.call_bind_of_ok counts, SourceM.call_ofExcept]

theorem eq_zeros_of_build {shape : Shape} (returns : ∃ t, build shape = .ok t) :
    build shape = .ok (zeros shape) := by
  obtain ⟨t, built⟩ := returns
  rw [built, (build_eq_ok_iff.1 built).2]

/-- As long as no call stops, a loop collects one result per call, in the order of the calls. -/
theorem Supplies.call_collectFrom (supplies : Supplies ready source shapes)
    (isReady : ready start s)
    (returns : ∀ k, start ≤ k → k < start + count → ∃ t, build (shapes k) = .ok t) :
    ∃ s', (collectFrom (fun _ => source) start count).call s =
      (.ok ((List.range' start count).map fun k => zeros (shapes k)), s') ∧
        ready (start + count) s' := by
  -- the state after the first call is where the rest of the loop starts
  induction count generalizing start s with
  | zero => exact ⟨s, rfl, isReady⟩
  | succ count ih =>
    obtain ⟨s₁, called, isReady₁⟩ := supplies start s isReady
    rw [eq_zeros_of_build (returns start (Nat.le_refl _) (by omega))] at called
    obtain ⟨s', others, isReady'⟩ := ih isReady₁ fun k low high => returns k (by omega) (by omega)
    refine ⟨s', ?_, by rwa [Nat.add_assoc, Nat.add_comm 1] at isReady'⟩
    rw [collectFrom, SourceM.call_bind_of_ok called, SourceM.call_bind_of_ok others,
      SourceM.call_pure, List.range'_succ, List.map_cons]

/-- The first call to stop stops the loop, and is the last one. -/
theorem Supplies.call_collectFrom_of_stop (supplies : Supplies ready source shapes)
    (isReady : ready start s) (bound : j < count)
    (stops : build (shapes (start + j)) = .error fault)
    (returns : ∀ k < j, ∃ t, build (shapes (start + k)) = .ok t) :
    ∃ s', (collectFrom (fun _ => source) start count).call s = (.error fault, s') ∧
      ready (start + j + 1) s' := by
  induction count generalizing start j s with
  | zero => exact absurd bound (Nat.not_lt_zero j)
  | succ count ih =>
    obtain ⟨s₁, called, isReady₁⟩ := supplies start s isReady
    cases j with
    | zero =>
      rw [Nat.add_zero] at stops
      rw [stops] at called
      exact ⟨s₁, SourceM.call_bind_of_error called, isReady₁⟩
    | succ j =>
      have first := eq_zeros_of_build (returns 0 (Nat.succ_pos j))
      rw [Nat.add_zero] at first
      rw [first] at called
      have shift (k : Nat) : start + 1 + k = start + (k + 1) := by omega
      obtain ⟨s', stopped, isReady'⟩ := ih isReady₁ (Nat.lt_of_succ_lt_succ bound)
        (by rw [shift, stops]) fun k lt => by
          rw [shift]
          exact returns (k + 1) (Nat.succ_lt_succ lt)
      refine ⟨s', ?_, by rwa [shift] at isReady'⟩
      rw [collectFrom, SourceM.call_bind_of_ok called, SourceM.call_bind_of_error stopped]

/-- An interior array over new trees, one for each element. -/
def zerosOver (extent : UInt64) (shapes : Nat → Shape) : Tree :=
  interior extent ((List.range' 0 extent.toNat).map fun k => zeros (shapes k))

theorem wellFormed_zerosOver (nonempty : ∀ k < extent.toNat, shapes k ≠ []) :
    (zerosOver extent shapes).WellFormed := by
  refine (wellFormed_interior _ _).2 ⟨by simp, ?_⟩
  intro t part
  obtain ⟨k, bound, rfl⟩ : ∃ k < extent.toNat, zeros (shapes k) = t := by simpa using part
  exact wellFormed_zeros (nonempty k bound)

theorem hasRank_zerosOver {rank : Nat} (pos : 0 < rank)
    (nonempty : ∀ k < extent.toNat, shapes k ≠ [])
    (even : ∀ k < extent.toNat, (shapes k).length = rank) :
    (zerosOver extent shapes).HasRank (rank + 1) := by
  refine (hasRank_interior _ _ _).2 ⟨pos, ?_⟩
  intro t part
  obtain ⟨k, bound, rfl⟩ : ∃ k < extent.toNat, zeros (shapes k) = t := by simpa using part
  rw [← even k bound]
  exact hasRank_zeros (nonempty k bound)

theorem call_checkSlots (fits : checkSlots extent = .ok ()) (s : σ) :
    (MonadExcept.ofExcept (checkSlots extent) : SourceM σ Unit).call s = (.ok (), s) := by
  rw [fits, SourceM.call_ofExcept]

/-- An interior array has the results of the calls for its elements, one call for each. -/
theorem Supplies.call_buildInterior (supplies : Supplies ready source shapes)
    (isReady : ready 0 s) (fits : checkSlots extent = .ok ())
    (returns : ∀ k < extent.toNat, ∃ t, build (shapes k) = .ok t) :
    ∃ s', (buildInterior extent fun _ => source).call s = (.ok (zerosOver extent shapes), s') ∧
      ready extent.toNat s' := by
  have each (k : Nat) (_ : 0 ≤ k) (bound : k < 0 + extent.toNat) :
      ∃ t, build (shapes k) = .ok t := returns k (by omega)
  obtain ⟨s', collected, isReady'⟩ := supplies.call_collectFrom isReady each
  rw [Nat.zero_add] at isReady'
  refine ⟨s', ?_, isReady'⟩
  rw [buildInterior, SourceM.call_bind_of_ok (call_checkSlots fits s),
    SourceM.call_bind_of_ok collected, SourceM.call_pure, zerosOver]

/-- A builder stops at the first call that does, and makes no other. -/
theorem Supplies.call_buildInterior_of_stop (supplies : Supplies ready source shapes)
    (isReady : ready 0 s) (fits : checkSlots extent = .ok ()) (bound : j < extent.toNat)
    (stops : build (shapes j) = .error fault)
    (returns : ∀ k < j, ∃ t, build (shapes k) = .ok t) :
    ∃ s', (buildInterior extent fun _ => source).call s = (.error fault, s') ∧
      ready (j + 1) s' := by
  rw [← Nat.zero_add j] at stops
  obtain ⟨s', stopped, isReady'⟩ := supplies.call_collectFrom_of_stop isReady bound stops
    fun k lt => by rw [Nat.zero_add]; exact returns k lt
  rw [Nat.zero_add] at isReady'
  refine ⟨s', ?_, isReady'⟩
  rw [buildInterior, SourceM.call_bind_of_ok (call_checkSlots fits s),
    SourceM.call_bind_of_error stopped]

end Tree

/-! ### Memory -/

namespace Heap

/-- The same source, with a count of its calls next to its state. -/
def counted (source : StateT σ HeapM Ref) : StateT (σ × Nat) HeapM Ref := fun (s, calls) => do
  let (root, s') ← source.run s
  return (root, (s', calls + 1))

/-- A source that is ready for call number `k`, counted from zero, does in that call what the
builder does for shape number `k`, if this does not stop, and is ready for the next one. -/
def Supplies (ready : Nat → σ → Prop) (source : StateT σ HeapM Ref) (shapes : Nat → Shape) :
    Prop :=
  ∀ k s, ready k s → ∀ h root h', (build (shapes k)).run h = .ok (root, h') →
    ∃ s', (source.run s).run h = .ok ((root, s'), h') ∧ ready (k + 1) s'

variable {ready : Nat → σ → Prop} {source : StateT σ HeapM Ref} {shapes : Nat → Shape} {s : σ}
  {extent : UInt64} {start count : Nat} {array : Ref} {h h' : Heap}

theorem Supplies.counted (supplies : Supplies ready source shapes) :
    Supplies (fun k (s : σ × Nat) => ready k s.1 ∧ s.2 = k) (counted source) shapes := by
  rintro k ⟨s, _⟩ ⟨isReady, rfl⟩ h root h' built
  obtain ⟨s', called, isReady'⟩ := supplies _ s isReady h root h' built
  refine ⟨(s', _), ?_, isReady', rfl⟩
  show ((source.run s).run h >>= _) = _
  rw [called]
  rfl

/-- The source that builds the given shapes in memory, one per call. -/
def sourceOf (shapes : Nat → Shape) : StateT Nat HeapM Ref := do
  let k ← getModify (· + 1)
  build (shapes k)

theorem supplies_sourceOf (shapes : Nat → Shape) :
    Supplies (fun k s => s = k) (sourceOf shapes) shapes := by
  rintro _ k rfl h root h' built
  refine ⟨k + 1, ?_, rfl⟩
  show ((build (shapes k)).run h >>= _) = _
  rw [built]
  rfl

theorem run_allocate_of_check (fits : checkBlock extent = .ok ()) (s : σ) (h : Heap) :
    ((allocate extent : StateT σ HeapM Ref).run s).run h =
      .ok ((h.next, s), h.push (freshCells extent)) := by
  unfold allocate
  cases layout : blockLayout extent with
  | error fault =>
    rw [checkBlock, layout] at fits
    cases fits
  | ok block => rfl

/-- Entering sub-arrays from a source leaves the memory that building their shapes one after the
other leaves. -/
theorem Supplies.run_enterFrom (supplies : Supplies ready source shapes)
    (isReady : ready start s)
    (ran : (enterFrom (fun k => build (shapes k)) array start count).run h = .ok ((), h')) :
    ∃ s', ((enterFrom (fun _ => source) array start count).run s).run h = .ok (((), s'), h') ∧
      ready (start + count) s' := by
  induction count generalizing start s h with
  | zero =>
    cases ran
    exact ⟨s, rfl, isReady⟩
  | succ count ih =>
    simp only [enterFrom, StateT.run_bind, StateT.run_modify, pure_bind,
      except_bind_eq_ok_iff] at ran
    obtain ⟨⟨sub, h₁⟩, built, rest⟩ := ran
    obtain ⟨s₁, called, isReady₁⟩ := supplies start s isReady h sub h₁ built
    obtain ⟨s', others, isReady'⟩ := ih isReady₁ rest
    refine ⟨s', ?_, by rwa [Nat.add_assoc, Nat.add_comm 1] at isReady'⟩
    simp only [enterFrom, StateT.run_bind, called]
    exact others

/-- An interior array over sub-arrays from a source stands behind the old blocks when its last
call is made. -/
theorem Supplies.run_buildInterior (supplies : Supplies ready source shapes) (isReady : ready 0 s)
    (fits : checkBlock extent = .ok ())
    (passed : ∀ k < extent.toNat, (shapes k).check checkBlock checkBlock = .ok ()) (h : Heap) :
    ∃ h' s', ((buildInterior extent fun _ => source).run s).run h = .ok ((h.next, s'), h') ∧
      ready extent.toNat s' ∧
      Built h h' (Tree.zerosOver extent shapes) := by
  have each (k : Nat) (bound : k < 0 + extent.toNat) (h : Heap) :
      ∃ h', (build (shapes k)).run h = .ok (h.next, h') ∧ Built h h' (Tree.zeros (shapes k)) :=
    run_build_of_check (passed k (by omega)) h
  obtain ⟨h', ran, filled⟩ :=
    Heap.run_enterFrom each (entering_push h extent) rfl (Nat.zero_add _)
  obtain ⟨s', entered, isReady'⟩ := supplies.run_enterFrom isReady ran
  rw [Nat.zero_add] at isReady'
  refine ⟨h', s', ?_, isReady', filled.built (by simp)⟩
  rw [buildInterior, StateT.run_bind, StateT.run_bind, run_allocate_of_check fits]
  show ((do enterFrom (fun _ => source) h.next 0 extent.toNat; return h.next :
    StateT σ HeapM Ref).run s).run (h.push (freshCells extent)) = _
  rw [StateT.run_bind, StateT.run_bind, entered]
  rfl

end Heap

/-! ### Both builders -/

theorem checkSlots_of_fits {extent : UInt64} (fits : 24 * extent.toNat ≤ 2 ^ 63 - 1) :
    Tree.checkSlots extent = .ok () := by
  rw [Tree.checkSlots_eq_ok_iff, slotBytes, maxBlockBytes]
  omega

/-- A builder calls a source once per element, as long as no call stops, and makes of the results
an array with the elements in the order of the calls.  If a call stops, it was the last one, and
its fault is that of the builder.  In memory, with sub-arrays of one rank, there are as many
calls, and what is read afterwards is the same array. -/
theorem buildInterior_follows_source {extent : UInt64} (fits : 24 * extent.toNat ≤ 2 ^ 63 - 1)
    {shapes : Nat → Shape} {ready : Nat → σ → Prop} {source : SourceM σ Tree}
    (supplies : Tree.Supplies ready source shapes) {s : σ} (isReady : ready 0 s) :
    ((∀ k < extent.toNat, ∃ t, Tree.build (shapes k) = .ok t) →
      ∃ ts s', (Tree.buildInterior extent fun _ => source.counted).call (s, 0) =
          (.ok (.interior extent ts), (s', extent.toNat)) ∧
        ts.length = extent.toNat ∧
        (∀ k < extent.toNat, ∃ t, ts[k]? = some t ∧ Tree.build (shapes k) = .ok t) ∧
        ∀ {τ : Type} {ready₁ : Nat → τ → Prop} {source₁ : StateT τ HeapM Ref} {s₁ : τ} {rank : Nat},
          Heap.Supplies ready₁ source₁ shapes → ready₁ 0 s₁ → 0 < rank →
          (∀ k < extent.toNat, (shapes k).length = rank) → ∀ h, ∃ root h' s₁',
            ((Heap.buildInterior extent fun _ => Heap.counted source₁).run (s₁, 0)).run h =
              .ok ((root, (s₁', extent.toNat)), h') ∧
            h'.readTree (rank + 1) root = .ok (some (.interior extent ts))) ∧
    ∀ j < extent.toNat, ∀ fault, Tree.build (shapes j) = .error fault →
      (∀ k < j, ∃ t, Tree.build (shapes k) = .ok t) →
        ∃ s', (Tree.buildInterior extent fun _ => source.counted).call (s, 0) =
          (.error fault, (s', j + 1)) := by
  have slots := checkSlots_of_fits fits
  constructor
  · intro returns
    have passed (k : Nat) (bound : k < extent.toNat) :=
      (Tree.build_eq_ok_iff.1 (Tree.eq_zeros_of_build (returns k bound))).1
    have nonempty (k : Nat) (bound : k < extent.toNat) := Shape.ne_nil_of_check (passed k bound)
    obtain ⟨⟨s', calls⟩, built, -, rfl⟩ :=
      supplies.counted.call_buildInterior (s := (s, 0)) ⟨isReady, rfl⟩ slots returns
    refine ⟨_, s', built, by simp, ?_, ?_⟩
    · intro k bound
      exact ⟨Tree.zeros (shapes k), by simp [bound], Tree.eq_zeros_of_build (returns k bound)⟩
    · intro τ ready₁ source₁ s₁ rank supplies₁ isReady₁ pos even h
      obtain ⟨h', ⟨s₁', calls₁⟩, ran, ⟨-, rfl⟩, inMemory⟩ :=
        supplies₁.counted.run_buildInterior (s := (s₁, 0)) ⟨isReady₁, rfl⟩
          (checkBlock_of_checkSlots extent slots)
          (fun k bound => checkBlock_of_check (passed k bound)) h
      exact ⟨h.next, h', s₁', ran, inMemory.readTree (Tree.wellFormed_zerosOver nonempty)
        (Tree.hasRank_zerosOver pos nonempty even)⟩
  · intro j bound fault stops returns
    obtain ⟨⟨s', calls⟩, stopped, -, rfl⟩ := supplies.counted.call_buildInterior_of_stop
      (s := (s, 0)) ⟨isReady, rfl⟩ slots bound stops returns
    exact ⟨s', stopped⟩

/-- Three sub-arrays, the second of which is empty, and then three of which the second cannot be
built. -/
theorem buildInterior_follows_source_three :
    let shapes : Nat → Shape := fun k => if k = 1 then [0, 9] else [1, 2]
    let broken : Nat → Shape := fun k => if k = 1 then [] else [1, 2]
    let row := Tree.interior 1 [.leaf ⟨[2, 0, 0]⟩]
    let ts := [row, .interior 0 [], row]
    (Tree.buildInterior 3 fun _ => (Tree.sourceOf shapes).counted).call (0, 0) =
        (.ok (.interior 3 ts), (3, 3)) ∧
      (∃ root h' s', ((Heap.buildInterior 3 fun _ => Heap.counted (Heap.sourceOf shapes)).run
          (0, 0)).run ⟨#[some [.num 7], none]⟩ = .ok ((root, (s', 3)), h') ∧
        h'.readTree 3 root = .ok (some (.interior 3 ts))) ∧
      ∃ s', (Tree.buildInterior 3 fun _ => (Tree.sourceOf broken).counted).call (0, 0) =
        (.error .noRank, (s', 2)) := by
  intro shapes broken row ts
  have fits : 24 * (3 : UInt64).toNat ≤ 2 ^ 63 - 1 := by decide
  have other (k : Nat) (first : k ≠ 1) : shapes k = [1, 2] ∧ broken k = [1, 2] := by
    simp [shapes, broken, first]
  have returns (k : Nat) (_ : k < (3 : UInt64).toNat) :
      ∃ t, Tree.build (shapes k) = .ok t ∧ (shapes k).length = 2 := by
    by_cases second : k = 1
    · exact ⟨.interior 0 [], by rw [second]; exact ⟨rfl, rfl⟩⟩
    · exact ⟨row, by rw [(other k second).1]; exact ⟨rfl, rfl⟩⟩
  have first (k : Nat) (lt : k < 1) : ∃ t, Tree.build (broken k) = .ok t :=
    ⟨row, by rw [(other k (Nat.ne_of_lt lt)).2]; rfl⟩
  have value : (Tree.buildInterior 3 fun _ => (Tree.sourceOf shapes).counted).call (0, 0) =
      (.ok (.interior 3 ts), (3, 3)) := rfl
  obtain ⟨us, s', built, -, -, inMemory⟩ :=
    (buildInterior_follows_source fits (Tree.supplies_sourceOf shapes) (s := 0) rfl).1
      fun k bound => (returns k bound).imp fun _ both => both.1
  obtain rfl : ts = us := by
    have same := value.symm.trans built
    simp only [Prod.mk.injEq, Except.ok.injEq, Tree.interior.injEq] at same
    exact same.1.2
  refine ⟨value, ?_, ?_⟩
  · exact inMemory (Heap.supplies_sourceOf shapes) rfl (by decide)
      (fun k bound => (returns k bound).elim fun _ both => both.2) _
  · exact (buildInterior_follows_source fits (Tree.supplies_sourceOf broken) (s := 0) rfl).2 1
      (by decide) .noRank rfl first

end ArrayLayout
