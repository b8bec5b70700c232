/-
Things by name.

`Names α` holds at most one thing of each name.  Its view is `Names.find?`; the lemmas say
what entering a thing does to it, under its own name and under others, and that removing a
thing leaves the other names alone.
-/

namespace ArrayLayout

/-- Things by name. -/
structure Names (α : Type) where
  entries : List (String × α)

namespace Names

variable {α : Type}

/-- No names. -/
def empty : Names α := ⟨[]⟩

/-- The thing of a name. -/
def find? (ns : Names α) (name : String) : Option α := ns.entries.lookup name

/-- Removes a name. -/
def erase (ns : Names α) (name : String) : Names α :=
  ⟨ns.entries.filter fun entry => entry.1 != name⟩

/-- Gives a name to a thing; whatever had the name loses it. -/
def insert (ns : Names α) (name : String) (a : α) : Names α :=
  ⟨(name, a) :: (ns.erase name).entries⟩

/-- Changes the thing of a name, if there is one. -/
def modify (ns : Names α) (name : String) (change : α → α) : Names α :=
  match ns.find? name with
  | none => ns
  | some a => ns.insert name (change a)

@[simp] theorem find?_empty (name : String) : (empty : Names α).find? name = none := rfl

theorem find?_erase_of_ne (ns : Names α) {name other : String} (differ : other ≠ name) :
    (ns.erase name).find? other = ns.find? other := by
  obtain ⟨entries⟩ := ns
  induction entries with
  | nil => rfl
  | cons entry rest ih =>
    obtain ⟨key, a⟩ := entry
    by_cases same : key = name
    · subst same
      have away : (other == key) = false := by simpa using differ
      simpa [find?, erase, List.lookup_cons, away] using ih
    · by_cases hit : other = key
      · simp [find?, erase, same, hit]
      · have away : (other == key) = false := by simpa using hit
        simpa [find?, erase, same, List.lookup_cons, away] using ih

@[simp] theorem find?_insert_self (ns : Names α) (name : String) (a : α) :
    (ns.insert name a).find? name = some a := by
  simp [insert, find?]

theorem find?_insert_of_ne (ns : Names α) {name other : String} (a : α) (differ : other ≠ name) :
    (ns.insert name a).find? other = ns.find? other := by
  have away : (other == name) = false := by simpa using differ
  rw [← find?_erase_of_ne ns differ]
  simp [insert, find?, List.lookup_cons, away]

end Names

end ArrayLayout
