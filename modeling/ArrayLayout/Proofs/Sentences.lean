/-
Sentences for rejections.

Each reason for turning a request down has a sentence of its own, with the numbers of the case in
it.  The words stand between blanks, and a number is one word, so what was rejected and why can be
read from the sentence.  The warning in the log carries no more than the sentence, and needs no
more.

* `Rejection.words` — the words of a sentence;
* `Rejection.ofMessage?` — the reader of sentences;
* `Event.reason?` — the rejection that a report warns of, by its text;
* `Limits.rejected_iff_reason_logged` — a builder returns the rejection that its log tells of;
* `Rejection.message_determines_reason` — the sentence says all of a rejection, in the log as well.
-/
import ArrayLayout.Proofs.Reports
import ArrayLayout.Proofs.Texts

namespace ArrayLayout

namespace Rejection

variable {text : String} {spoken : List String} {r : Rejection}

/-- The words of the sentence for a rejection. -/
def words : Rejection → List String
  | noExtents => ["dimension", "list", "is", "empty"]
  | rankAboveLimit rank max => ["rank", rank.repr, "exceeds", "maximum", "rank", max.repr]
  | negativeExtent depth extent =>
    ["negative", "extent", extent.repr, "at", "dimension", depth.repr]
  | countOverflow => ["cell", "count", "overflows", "u64"]
  | tooManyCells requested limit =>
    ["shape", "needs", requested.repr, "cells,", "limit", "is", limit.repr, "cells"]

/-- The sentence is these words with blanks between them. -/
theorem message_eq_intercalate_words (r : Rejection) : r.message = " ".intercalate r.words := by
  -- What stands between the numbers is cut at its blanks; the rest is the order of brackets.
  cases r with
  | noExtents => rfl
  | rankAboveLimit rank max =>
    have start : "rank " = "rank" ++ " " := rfl
    have middle : " exceeds maximum rank " =
        " " ++ "exceeds" ++ " " ++ "maximum" ++ " " ++ "rank" ++ " " := rfl
    show "rank " ++ rank.repr ++ " exceeds maximum rank " ++ max.repr = _
    simp only [words, start, middle, String.intercalate_cons_cons, String.intercalate_singleton,
      String.append_assoc]
  | negativeExtent depth extent =>
    have start : "negative extent " = "negative" ++ " " ++ "extent" ++ " " := rfl
    have middle : " at dimension " = " " ++ "at" ++ " " ++ "dimension" ++ " " := rfl
    show "negative extent " ++ extent.repr ++ " at dimension " ++ depth.repr = _
    simp only [words, start, middle, String.intercalate_cons_cons, String.intercalate_singleton,
      String.append_assoc]
  | countOverflow => rfl
  | tooManyCells requested limit =>
    have start : "shape needs " = "shape" ++ " " ++ "needs" ++ " " := rfl
    have middle : " cells, limit is " =
        " " ++ "cells," ++ " " ++ "limit" ++ " " ++ "is" ++ " " := rfl
    have stop : " cells" = " " ++ "cells" := rfl
    show "shape needs " ++ requested.repr ++ " cells, limit is " ++ limit.repr ++ " cells" = _
    simp only [words, start, middle, stop, String.intercalate_cons_cons,
      String.intercalate_singleton, String.append_assoc]

/-- The rejection that a sentence with these words is for. -/
def ofWords? : List String → Option Rejection
  | ["dimension", "list", "is", "empty"] => some noExtents
  | ["rank", rank, "exceeds", "maximum", "rank", max] => do
    return rankAboveLimit (← Text.natural? rank) (← Text.natural? max)
  | ["negative", "extent", extent, "at", "dimension", depth] => do
    return negativeExtent (← Text.natural? depth) (← Text.integer? extent)
  | ["cell", "count", "overflows", "u64"] => some countOverflow
  | ["shape", "needs", requested, "cells,", "limit", "is", limit, "cells"] => do
    return tooManyCells (← Text.natural? requested) (← Text.natural? limit)
  | _ => none

theorem ofWords?_words (r : Rejection) : ofWords? r.words = some r := by
  have nat (n : Nat) : Text.natural? n.repr = some n := Text.natural?_eq_some_iff.2 rfl
  have int (n : Int) : Text.integer? n.repr = some n := Text.integer?_eq_some_iff.2 rfl
  cases r <;> simp [words, ofWords?, nat, int]

/-- No other words are read as a rejection, and none is read as two. -/
theorem eq_words_of_ofWords? (read : ofWords? spoken = some r) : spoken = r.words := by
  unfold ofWords? at read
  -- The five sentences in the order of the reader; it refuses everything else.
  split at read <;>
    simp only [Option.bind_eq_bind, Option.bind_eq_some_iff, Option.pure_def, Option.some.injEq,
      Text.natural?_eq_some_iff, Text.integer?_eq_some_iff, reduceCtorEq] at read
  · rw [← read]
    rfl
  · obtain ⟨rank, rfl, max, rfl, rfl⟩ := read
    rfl
  · obtain ⟨depth, rfl, extent, rfl, rfl⟩ := read
    rfl
  · rw [← read]
    rfl
  · obtain ⟨requested, rfl, limit, rfl, rfl⟩ := read
    rfl

/-- Blanks separate the words of a sentence, and nothing in them is a blank. -/
theorem isPart_of_mem_words : ∀ word ∈ r.words, Text.IsPart ' ' word := by
  have natural (n : Nat) : Text.IsPart ' ' n.repr := Text.isPart_repr rfl n
  have integer (n : Int) : Text.IsPart ' ' n.repr := Text.isPart_int_repr rfl (by decide) n
  cases r <;> simp only [words, List.forall_mem_cons, natural, integer] <;> simp [Text.isPart_iff]

/-- The rejection that a sentence is for. -/
def ofMessage? (text : String) : Option Rejection := ofWords? (Text.parts ' ' text)

theorem ofMessage?_eq_some_iff : ofMessage? text = some r ↔ text = r.message := by
  rw [message_eq_intercalate_words]
  constructor
  · intro read
    exact (Text.parts_eq_iff isPart_of_mem_words).1 (eq_words_of_ofWords? read)
  · intro same
    rw [ofMessage?, (Text.parts_eq_iff isPart_of_mem_words).2 same, ofWords?_words]

end Rejection

/-- The rejection that a report warns of, as its text says. -/
def Event.reason? (e : Event) : Option Rejection :=
  match e.fields with
  | [_, ("error", .text sentence)] => Rejection.ofMessage? sentence
  | _ => none

@[simp] theorem Event.reason?_rejected (rank : Nat) (reason : Rejection) :
    (Event.rejected rank reason).reason? = some reason :=
  Rejection.ofMessage?_eq_some_iff.2 rfl

@[simp] theorem Event.reason?_allocating (s : Shape) (arrays cells : Nat) :
    (Event.allocating s arrays cells).reason? = none := rfl

/-- What a checked builder turns a request down for can be read from its log, and what can be read
there is what comes back. -/
theorem Limits.rejected_iff_reason_logged {α : Type} {limits : Limits} {slotBytes : Nat}
    {request : List Int64} {reason : Rejection} (build : Shape → Except Fault α) :
    (limits.buildWith slotBytes build request).result = .error (.rejected reason) ↔
      (limits.buildWith slotBytes build request).events.map Event.reason? = [some reason] := by
  cases decision : (limits.clampTo slotBytes).accept request with
  | error actual =>
    rw [result_buildWith_of_error build decision, events_buildWith_of_error build decision]
    simp
  | ok admitted =>
    rw [result_buildWith_of_ok build decision, events_buildWith_of_ok build decision]
    cases build admitted.1 <;> simp [Except.mapError]

/-- The sentence for a rejection says all of it.  Rejections with the same sentence are the same; a
text is read as a rejection exactly if it is the sentence for it.  So the warning in the log loses
nothing: a checked builder rejects a request for a reason exactly if that reason is read from the
text of its report. -/
theorem Rejection.message_determines_reason (r r' : Rejection) (text : String) (limits : Limits)
    (request : List Int64) (h : Heap) :
    (r.message = r'.message ↔ r = r') ∧ (ofMessage? text = some r ↔ text = r.message) ∧
    ((Tree.tryBuild limits request).result = .error (.rejected r) ↔
      (Tree.tryBuild limits request).events.map Event.reason? = [some r]) ∧
    ((Heap.tryBuild limits request h).result = .error (.rejected r) ↔
      (Heap.tryBuild limits request h).events.map Event.reason? = [some r]) := by
  refine ⟨Text.write_eq_write_iff ofMessage?_eq_some_iff, ofMessage?_eq_some_iff, ?_, ?_⟩
  · exact Limits.rejected_iff_reason_logged Tree.build
  · exact Limits.rejected_iff_reason_logged fun s => (Heap.build s).run h

end ArrayLayout
