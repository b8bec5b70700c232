/-
Sessions: named trees and named arrays in memory, side by side.

The two kinds of names do not mix.  The one step between them copies a nested array out
of memory into a tree of its own.  `Session.run` carries out a list of steps and gives one
answer for each, in order, along with all events.
-/
import ArrayLayout.Session.Memory
import ArrayLayout.Session.Trees

namespace ArrayLayout

/-- Everything that has a name. -/
structure Session where
  trees : Names Tree
  store : Store

/-- A step of a session. -/
inductive Step where
  | tree (step : TreeStep)
  | memory (step : MemoryStep)
  /-- Copies a nested array out of memory, and reports on the copy. -/
  | copyOut (name target : String)

namespace Session

/-- Nothing has a name. -/
def empty : Session := ⟨.empty, .empty⟩

/-- Carries out one step. -/
def step (s : Session) : Step → Logged (Session × Reply)
  | .tree step => do
    let (trees, reply) ← step.run s.trees
    return ({ s with trees }, reply)
  | .memory step => do
    let (store, reply) ← step.run s.store
    return ({ s with store }, reply)
  | .copyOut name target =>
    match s.store.roots.find? name with
    | none => return (s, .unknown name)
    | some held =>
      match held.root.tree? s.store.heap with
      | none => return (s, .unreadable)
      | some t => return ({ s with trees := s.trees.insert target t }, .report t)

/-- Carries out steps from the left to the right. -/
def runFrom (s : Session) : List Step → Logged (Session × List Reply)
  | [] => return (s, [])
  | step :: rest => do
    let (s', reply) ← s.step step
    let (last, replies) ← s'.runFrom rest
    return (last, reply :: replies)

/-- Answers of a session that starts with nothing. -/
def run (steps : List Step) : Logged (List Reply) := do
  return (← empty.runFrom steps).2

/-- There is one answer for each step. -/
theorem length_replies (s : Session) (steps : List Step) :
    (s.runFrom steps).result.2.length = steps.length := by
  induction steps generalizing s with
  | nil => rfl
  | cons step rest ih => simpa [runFrom] using ih (s.step step).result.1

end Session

end ArrayLayout
