/-
Texts that can be read back.

A shape is written as decimals with a mark between them, in brackets.  No decimal contains the
mark, and none is empty, so the parts between the marks are the decimals again.  A text is the
written form of one shape at most, and it can be told which.

* `Text.readBack?` — reading what was written, and nothing else;
* `Text.natural?`, `Text.integer?` — decimals, read back;
* `Text.parts`, `Text.IsPart` — the parts of a text between marks, and what can be one;
* `Text.parts_eq_iff` — joining is undone by taking the parts, and taking the parts by joining;
* `Shape.ofText?` — the reader of shapes;
* `Shape.text_determines_extents` — it reads the written forms of shapes, each as its own shape.
-/
import ArrayLayout.Shape
import Mathlib

namespace ArrayLayout

namespace Text

/-! ### Values that are written -/

/-- Reads a text, provided that it is the very text that is written for what is read. -/
def readBack? {α : Type} (read : String → Option α) (write : α → String) (text : String) :
    Option α :=
  (read text).filter fun a => write a == text

theorem readBack?_eq_some_iff {α : Type} {read : String → Option α} {write : α → String}
    (recovers : ∀ a, read (write a) = some a) {text : String} {a : α} :
    readBack? read write text = some a ↔ text = write a := by
  rw [readBack?, Option.filter_eq_some_iff, beq_iff_eq]
  constructor
  · rintro ⟨-, written⟩
    exact written.symm
  · rintro rfl
    exact ⟨recovers a, rfl⟩

/-- The natural number that a decimal stands for. -/
def natural? : String → Option Nat := readBack? String.toNat? Nat.repr

/-- The integer that a decimal with or without a sign stands for. -/
def integer? : String → Option Int := readBack? String.toInt? Int.repr

theorem natural?_eq_some_iff {text : String} {n : Nat} : natural? text = some n ↔ text = n.repr :=
  readBack?_eq_some_iff Nat.toNat?_repr

theorem integer?_eq_some_iff {text : String} {n : Int} : integer? text = some n ↔ text = n.repr :=
  readBack?_eq_some_iff Int.toInt?_repr

section Inverse

variable {α : Type} {read : String → Option α} {write : α → String}

/-- Where what can be read is what is written, values with the same text are the same. -/
theorem write_eq_write_iff (inverse : ∀ {text a}, read text = some a ↔ text = write a) {a b : α} :
    write a = write b ↔ a = b := by
  rw [← inverse, inverse.2 rfl, Option.some_inj]

/-- Texts that are read one by one are the written forms of what is read. -/
theorem mapM_eq_some_iff_eq_map (inverse : ∀ {text a}, read text = some a ↔ text = write a)
    {texts : List String} {as : List α} :
    texts.mapM read = some as ↔ texts = as.map write := by
  induction texts generalizing as with
  | nil => cases as <;> simp
  | cons text texts ih =>
    simp only [List.mapM_cons, Option.bind_eq_bind, Option.bind_eq_some_iff, inverse, ih]
    constructor
    · rintro ⟨a, rfl, rest, rfl, result⟩
      cases result
      rfl
    · intro same
      cases as with
      | nil => cases same
      | cons a rest =>
        obtain ⟨rfl, rfl⟩ := List.cons.inj same
        exact ⟨a, rfl, rest, rfl, rfl⟩

end Inverse

/-! ### Parts -/

variable {mark : Char} {text : String} {words : List String}

/-- The parts of a text between the marks.  An empty text has no parts. -/
def parts (mark : Char) (text : String) : List String :=
  if text = "" then [] else (text.toList.splitOn mark).map String.ofList

/-- A text that can stand between marks and be seen there. -/
@[mk_iff]
structure IsPart (mark : Char) (word : String) : Prop where
  ne_empty : word ≠ ""
  clear : mark ∉ word.toList

/-- The parts of a text, joined by the mark, are the text. -/
theorem intercalate_parts (mark : Char) (text : String) :
    (String.singleton mark).intercalate (parts mark text) = text := by
  unfold parts
  split
  · next empty => rw [empty, String.intercalate_nil]
  · have chars : String.toList ∘ String.ofList = id := by
      funext l
      simp
    rw [← String.toList_inj, String.toList_intercalate, List.map_map, chars, List.map_id,
      String.toList_singleton, List.intercalate_splitOn]

/-- Parts that are joined can be taken apart again. -/
theorem parts_intercalate (each : ∀ word ∈ words, IsPart mark word) :
    parts mark ((String.singleton mark).intercalate words) = words := by
  cases words with
  | nil => rfl
  | cons word rest =>
    have nonempty : (String.singleton mark).intercalate (word :: rest) ≠ "" := by
      have first := (each word List.mem_cons_self).ne_empty
      cases rest <;> simp [first]
    rw [parts, if_neg nonempty, String.toList_intercalate, String.toList_singleton,
      List.splitOn_intercalate]
    · simp
    · simpa using fun w used => (each w (List.mem_cons.2 used)).clear
    · simp

theorem parts_eq_iff (each : ∀ word ∈ words, IsPart mark word) :
    parts mark text = words ↔ text = (String.singleton mark).intercalate words := by
  constructor
  · rintro rfl
    exact (intercalate_parts mark text).symm
  · rintro rfl
    exact parts_intercalate each

/-- A mark that is not a digit can stand between decimals. -/
theorem isPart_repr (other : mark.isDigit = false) (n : Nat) : IsPart mark n.repr where
  ne_empty := Nat.repr_ne_empty
  clear := by
    rw [Nat.repr_eq_ofList_toDigits, String.toList_ofList]
    intro used
    rw [Nat.isDigit_of_mem_toDigits (by decide) (by decide) used] at other
    cases other

/-- A minus sign does not change that. -/
theorem isPart_int_repr (other : mark.isDigit = false) (unsigned : mark ≠ '-') (n : Int) :
    IsPart mark n.repr := by
  rw [Int.repr_eq_if]
  split
  · exact isPart_repr other _
  · refine ⟨by simp, ?_⟩
    rw [String.toList_append, List.mem_append, not_or]
    exact ⟨by simpa using unsigned, (isPart_repr other _).clear⟩

end Text

namespace Shape

variable {text inner : String} {s : Shape}

/-- The extent that a decimal stands for.  A number that is too large for a word wraps to an extent
that is not written like this, so it is none. -/
def readExtent? : String → Option UInt64 :=
  Text.readBack? (fun t => t.toNat?.map UInt64.ofNat) fun e => e.toNat.repr

theorem readExtent?_eq_some_iff {e : UInt64} :
    readExtent? text = some e ↔ text = e.toNat.repr := by
  refine Text.readBack?_eq_some_iff fun a => ?_
  rw [Nat.toNat?_repr, Option.map_some, UInt64.ofNat_toNat]

/-- What stands in brackets. -/
def bracketed? (text : String) : Option String := do
  let rest ← text.toList.dropPrefix? ['[']
  let inner ← rest.dropSuffix? [']']
  return String.ofList inner

theorem bracketed?_eq_some_iff : bracketed? text = some inner ↔ text = "[" ++ inner ++ "]" := by
  simp only [bracketed?, Option.bind_eq_bind, Option.bind_eq_some_iff, List.dropPrefix?_eq_some_iff,
    List.dropSuffix?_eq_some_iff, beq_iff_eq, Option.pure_def, Option.some.injEq]
  constructor
  · rintro ⟨rest, ⟨opening, whole, rfl⟩, chars, ⟨closing, rfl, rfl⟩, rfl⟩
    rw [← String.toList_inj, whole]
    simp
  · rintro rfl
    exact ⟨inner.toList ++ [']'], ⟨['['], by simp, rfl⟩, inner.toList, ⟨_, rfl, rfl⟩, by simp⟩

/-- The shape that is written like this: drops the brackets, takes the parts between the marks, and
reads them as decimals. -/
def ofText? (text : String) : Option Shape := do
  let inner ← bracketed? text
  (Text.parts 'x' inner).mapM readExtent?

/-- The parts of the short form are the extents in decimal. -/
theorem parts_eq_iff_eq_joined :
    (Text.parts 'x' inner = s.map fun e => e.toNat.repr) ↔ inner = s.joined "x" := by
  refine Text.parts_eq_iff ?_
  intro word used
  obtain ⟨e, -, rfl⟩ := List.mem_map.1 used
  exact Text.isPart_repr rfl e.toNat

/-- What can be read is what is written. -/
theorem ofText?_eq_some_iff : ofText? text = some s ↔ text = s.text := by
  simp only [ofText?, Option.bind_eq_bind, Option.bind_eq_some_iff, bracketed?_eq_some_iff,
    Text.mapM_eq_some_iff_eq_map readExtent?_eq_some_iff, parts_eq_iff_eq_joined, exists_eq_right]
  rfl

/-- The short form of a shape says all of it.  Shapes with the same short form are the same; a text
is read as a shape exactly if it is the short form of that shape, so extents and their number come
back from it as they were, no extents from empty brackets. -/
theorem text_determines_extents (s s' : Shape) (text : String) :
    (s.text = s'.text ↔ s = s') ∧ (ofText? text = some s ↔ text = s.text) ∧
      ofText? "[]" = some [] := by
  have empty : ofText? "[]" = some [] := ofText?_eq_some_iff.2 rfl
  exact ⟨Text.write_eq_write_iff ofText?_eq_some_iff, ofText?_eq_some_iff, empty⟩

end Shape

end ArrayLayout
