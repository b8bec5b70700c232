/-
Steps on named trees.

A name stands for a tree of its own: copying is deep, and a change under one name is not
seen under another.  `TreeStep.run` carries out one step; `find?_ask` says that a question
leaves every tree as it is.

A replaced part is read before the replacement, so a tree may be put into itself.
-/
import ArrayLayout.Session.Names
import ArrayLayout.Session.Reply
import ArrayLayout.Tree.Check
import ArrayLayout.Tree.Path

namespace ArrayLayout

/-- A step on named trees. -/
inductive TreeStep where
  | build (target : String) (shape : Shape)
  | tryBuild (target : String) (request : List Int64) (limits : Limits)
  /-- Builds an interior array over sub-arrays of given shapes. -/
  | buildOver (target : String) (extent : UInt64) (shapes : List Shape)
  /-- Copies a tree, and compares the copy with it. -/
  | copy (name target : String)
  | compare (name other : String)
  | report (name : String)
  | get (name : String) (path : List Nat)
  | set (name : String) (path : List Nat) (value : UInt64)
  | leafAt (name : String) (path : List Nat) (indices : List Nat)
  /-- Overwrites the numbers of a leaf by a progression. -/
  | fill (name : String) (path : List Nat) (value step : UInt64)
  | inspect (name : String) (path : List Nat)
  | conforms (name : String) (shape : Shape)
  /-- Replaces a part of a tree by a copy of a part of a tree. -/
  | graft (name : String) (path : List Nat) (source : String) (sourcePath : List Nat)
  | assertZero (name : String)
  | assertZeroedShape (name : String) (shape : Shape)
  | countLeaves (names : List String)

namespace TreeStep

/-- Keeps a tree that was built under a name. -/
def keep (trees : Names Tree) (target : String) : Except Failure Tree → Names Tree × Reply
  | .error failure => (trees, .failed failure)
  | .ok t => (trees.insert target t, .listing t)

/-- Answers a question about the tree of a name. -/
def ask (trees : Names Tree) (name : String) (reply : Tree → Reply) : Names Tree × Reply :=
  match trees.find? name with
  | none => (trees, .unknown name)
  | some t => (trees, reply t)

/-- Replaces the tree of a name by what a change makes of it.  The answer is made from the
change, which may not apply, and from the tree that has the name afterwards. -/
def update (trees : Names Tree) (name : String) (change : Tree → Option Tree)
    (reply : (applied : Bool) → (before after : Tree) → Reply) : Names Tree × Reply :=
  match trees.find? name with
  | none => (trees, .unknown name)
  | some t =>
    match change t with
    | none => (trees, reply false t t)
    | some t' => (trees.insert name t', reply true t t')

/-- The answer of an assertion. -/
def verdict : Except Fault Unit → Reply
  | .error fault => .failed (.stopped fault)
  | .ok () => .holds

/-- Number of leaves of the trees of some names.  A name that comes twice is counted twice
in the list, and once over all. -/
def leafCounts (trees : Names Tree) (names : List String) : Option (List Nat × Nat) := do
  let leaves (name : String) := (trees.find? name).map Tree.leaves
  let each ← names.mapM leaves
  let distinct ← names.eraseDups.mapM leaves
  return (each.map List.length, distinct.flatten.length)

/-- Carries out a step. -/
def run (trees : Names Tree) : TreeStep → Logged (Names Tree × Reply)
  | build target shape => return keep trees target ((Tree.build shape).mapError .stopped)
  | tryBuild target request limits => return keep trees target (← Tree.tryBuild limits request)
  | buildOver target extent shapes =>
    return keep trees target (((Tree.buildOver extent shapes).map Prod.fst).mapError .stopped)
  | copy name target =>
    match trees.find? name with
    | none => return (trees, .unknown name)
    | some t => return (trees.insert target t, .equal (t == t))
  | compare name other =>
    match trees.find? other with
    | none => return (trees, .unknown other)
    | some u => return ask trees name fun t => .equal (t == u)
  | report name => return ask trees name .report
  | get name path => return ask trees name fun t => .number (t.get? path)
  | set name path value =>
    return update trees name (fun t => t.set? path value) fun applied before after =>
      .stored (if applied then before.get? path else none) after
  | leafAt name path indices =>
    return ask trees name fun t =>
      .leaf ((t.leafAt? path).map fun l => (l, indices.map fun i => l.get? i))
  | fill name path value step =>
    return update trees name (fun t => t.fillAt? path value step) fun _ _ after => .listing after
  | inspect name path => return ask trees name fun t => .array (t.at? path)
  | conforms name shape => return ask trees name fun t => .conforming (t.conforms shape)
  | graft name path source sourcePath =>
    match trees.find? source with
    | none => return (trees, .unknown source)
    | some u =>
      return update trees name (fun t => (u.at? sourcePath).bind fun new => t.replaceAt? path new)
        fun applied _ after => .grafted applied after
  | assertZero name => return ask trees name fun t => verdict t.assertZero
  | assertZeroedShape name shape =>
    return ask trees name fun t => verdict (t.assertZeroedShape shape)
  | countLeaves names =>
    match leafCounts trees names with
    | none => return (trees, .unknown (", ".intercalate names))
    | some (counts, distinct) => return (trees, .leafCounts counts distinct)

theorem find?_ask (trees : Names Tree) (name other : String) (reply : Tree → Reply) :
    (ask trees name reply).1.find? other = trees.find? other := by
  unfold ask
  split <;> rfl

end TreeStep

end ArrayLayout
