/-
Reports of checked builders.

A checked builder reports on a request before it builds anything.  The counts in the report are
predicted, and nothing in it waits for the builder to succeed.  It is true all the same: what is
admitted is built, and costs what was predicted, in whichever way it is represented.

* `Event.WarnsOf`, `Event.Announces` — what a report says of a rejection, and of a nested array;
* `Logged.ReportsTruly` — there is one report, and it says what became of the request;
* `Limits.reportsTruly_buildWith` — every checked builder that builds what is admitted reports
  truly;
* `events_tryAllocate` — the checked entry point adds nothing to the log;
* `tryBuild_reportsTruly` — both checked builders, and the entry point.
-/
import ArrayLayout.Proofs.Answers
import ArrayLayout.Proofs.Prediction
import ArrayLayout.Proofs.Verdict

namespace ArrayLayout

namespace Event

/-- The warning that a request was turned down, in the words of the failure that comes back. -/
structure WarnsOf (e : Event) (request : List Int64) (failure : Failure) : Prop where
  level : e.level = .warn
  origin : e.origin = .builder
  message : e.message = "rejected nested array request"
  fields : e.fields = [("rank", .number request.length), ("error", .text failure.message)]

/-- The note that a nested array is going to be built: the extents are those of the request, and
the counts are those that a walk finds on the array. -/
structure Announces (e : Event) (request : List Int64) (t : Tree) : Prop where
  level : e.level = .debug
  origin : e.origin = .builder
  message : e.message = "allocating nested array"
  fields : ∃ (s : Shape) (f : Footprint),
    (s.map fun extent => (extent.toNat : Int)) = request.map Int64.toInt ∧
      t.countFrom? 0 = some f ∧
      e.fields = [("dims", .text s.text), ("arrays", .number f.arrays), ("cells", .number f.cells)]

end Event

/-- One report is made, and it says what became of the request.  Either a rejection comes back, or a
result that `shows` some tree. -/
def Logged.ReportsTruly {α : Type} (request : List Int64) (shows : α → Tree → Prop)
    (run : Logged (Except Failure α)) : Prop :=
  ∃ e, run.events = [e] ∧
    (∀ failure, run.result = .error failure →
      (∃ reason, failure = .rejected reason) ∧ e.WarnsOf request failure) ∧
    ∀ a, run.result = .ok a → ∃ t, shows a t ∧ e.Announces request t

namespace Limits

variable {α : Type} {limits : Limits} {slotBytes : Nat} {request : List Int64} {s : Shape}
  {f : Footprint} {reason : Rejection} {build : Shape → Except Fault α}

theorem events_buildWith_of_error (build : Shape → Except Fault α)
    (refused : (limits.clampTo slotBytes).accept request = .error reason) :
    (limits.buildWith slotBytes build request).events = [.rejected request.length reason] := by
  rw [buildWith, decide, refused]
  rfl

theorem events_buildWith_of_ok (build : Shape → Except Fault α)
    (accepted : (limits.clampTo slotBytes).accept request = .ok (s, f)) :
    (limits.buildWith slotBytes build request).events = [.allocating s f.arrays f.cells] := by
  rw [buildWith, decide, accepted]
  rfl

/-- An acceptance announces the nested array that is asked for. -/
theorem announces_of_accept {l : Limits} (accepted : l.accept request = .ok (s, f)) :
    (Event.allocating s f.arrays f.cells).Announces request (Tree.zeros s) where
  level := rfl
  origin := rfl
  message := rfl
  fields := by
    obtain ⟨-, shape, counted, -⟩ := accept_eq_ok_iff.1 accepted
    obtain ⟨nonempty, signs, rfl⟩ := Shape.ofRequest_eq_ok_iff.1 shape
    have dims := Shape.reinterpret_ne_nil nonempty
    have found := Tree.count_of_conforms (Tree.wellFormed_zeros dims) (Tree.conforms_zeros dims)
      counted
    exact ⟨_, f, Shape.map_toInt_reinterpret signs, found.2, rfl⟩

/-- A builder that builds all that is admitted makes true reports.  It need not build it as a tree,
as long as its result can be read as one. -/
theorem reportsTruly_buildWith {shows : α → Tree → Prop}
    (builds : ∀ s f, (limits.clampTo slotBytes).accept request = .ok (s, f) →
      ∃ a, (limits.buildWith slotBytes build request).result = .ok a ∧ shows a (Tree.zeros s)) :
    (limits.buildWith slotBytes build request).ReportsTruly request shows := by
  cases decision : (limits.clampTo slotBytes).accept request with
  | error reason =>
    have result := result_buildWith_of_error build decision
    refine ⟨_, events_buildWith_of_error build decision, ?_, ?_⟩
    · intro failure failed
      rw [result] at failed
      cases failed
      exact ⟨⟨reason, rfl⟩, rfl, rfl, rfl, rfl⟩
    · intro a built
      rw [result] at built
      cases built
  | ok admitted =>
    obtain ⟨s, f⟩ := admitted
    obtain ⟨a, result, shown⟩ := builds s f decision
    refine ⟨_, events_buildWith_of_ok build decision, ?_, ?_⟩
    · intro failure failed
      rw [result] at failed
      cases failed
    · intro b built
      rw [result] at built
      cases built
      exact ⟨Tree.zeros s, shown, announces_of_accept decision⟩

end Limits

/-- The checked entry point logs what the builder does if it comes to that, and nothing else. -/
theorem events_tryAllocate (count : Int) (extents : Option (List Int64)) (bounds : Option Limits)
    (hasPlace : Bool) (h : Heap) :
    (tryAllocate count extents bounds hasPlace h).events =
      if readable count extents hasPlace then
        (Heap.tryBuild (bounds.getD .standard) (readExtents count extents) h).events
      else [] := by
  cases reads : readable count extents hasPlace with
  | false => simp [tryAllocate, reads]
  | true =>
    simp only [tryAllocate, reads, Bool.not_true, Bool.false_eq_true, if_false, if_true,
      Logged.events_bind]
    split <;> exact List.append_nil _

/-- Each checked builder makes one report on a request, and it is true.  A rejection comes back with
a warning that gives the number of extents and the very sentence of the rejection.  A nested array
comes with a note of the extents that were asked for, and of the arrays and cells that are found
on it; for one in memory, on the tree that it is read as.  The checked entry point makes the
report of the builder in memory if its arguments can be read, and no report if not. -/
theorem tryBuild_reportsTruly (limits : Limits) (request : List Int64) (h : Heap) :
    (Tree.tryBuild limits request).ReportsTruly request (fun built t => built = t) ∧
    (Heap.tryBuild limits request h).ReportsTruly request
      (fun built t => built.2.readTree request.length built.1 = .ok (some t)) ∧
    ∀ (count : Int) (extents : Option (List Int64)) (bounds : Option Limits) (hasPlace : Bool),
      (tryAllocate count extents bounds hasPlace h).events =
        if hasPlace = false ∨ count < 0 ∨ 0 < count ∧ extents = none then []
        else (Heap.tryBuild (bounds.getD ⟨32, 2 ^ 31⟩) (readExtents count extents) h).events := by
  refine ⟨?_, ?_, ?_⟩
  · refine Limits.reportsTruly_buildWith ?_
    intro s f accepted
    exact ⟨_, (Tree.tryBuild_of_accept accepted).2, rfl⟩
  · refine Limits.reportsTruly_buildWith ?_
    intro s f accepted
    obtain ⟨root, h', result, read⟩ := Heap.readTree_tryBuild accepted h
    exact ⟨(root, h'), result, read⟩
  · intro count extents bounds hasPlace
    rw [events_tryAllocate]
    by_cases reads : readable count extents hasPlace = true
    · rw [if_pos reads, if_neg (readable_iff.1 reads)]
      rfl
    · rw [if_neg reads, if_pos (Decidable.not_not.1 fun row => reads (readable_iff.2 row))]

end ArrayLayout
