/-
Steps on named arrays in memory.

A name stands for a root in a memory that all names share: once a part of one nested array
has been linked into another, a write through either shows in both.

A nested array can be given back only while its name is intact, that is, until a link has
gone from or to it or its lengths have been written: then its blocks are its own and have
the sizes that their length cells state.  A name that is not intact is given up without
touching its blocks, which stay valid wherever else they are linked.
-/
import ArrayLayout.Entry
import ArrayLayout.Session.Names
import ArrayLayout.Session.Reply

namespace ArrayLayout

/-- The root that a name stands for. -/
structure Held where
  root : Root
  /-- Whether it may still be given back. -/
  intact : Bool

/-- Memory, and the names of roots in it. -/
structure Store where
  heap : Heap
  roots : Names Held

/-- A step on named arrays in memory. -/
inductive MemoryStep where
  | build (target : String) (shape : Shape)
  | call (target : String) (c : Call)
  | tryBuild (target : String) (request : List Int64) (limits : Limits)
  /-- Builds an interior array over sub-arrays of given shapes, all of one rank. -/
  | buildOver (target : String) (extent : UInt64) (shapes : List Shape)
  | list (name : String)
  | length (name : String) (path : List Nat)
  | cells (name : String) (path : List Nat)
  | write (name : String) (path : List Nat) (index : Nat) (value : UInt64)
  /-- Writes a reference to an array into a cell. -/
  | link (name : String) (path : List Nat) (index : Nat) (source : String)
    (sourcePath : List Nat)
  | countShared (name : String) (path : List Nat)
  | release (name : String)

namespace Store

/-- No blocks and no names. -/
def empty : Store := ⟨.empty, .empty⟩

/-- Marks a name as no longer intact. -/
def disturb (s : Store) (name : String) : Store :=
  { s with roots := s.roots.modify name fun held => { held with intact := false } }

/-- Keeps a nested array that was built under a name. -/
def keep (s : Store) (target : String) : Except Failure (Root × Heap) → Store × Reply
  | .error failure => (s, .failed failure)
  | .ok (root, heap) =>
    match root.view? heap with
    | none => (s, .unreadable)
    | some view => (⟨heap, s.roots.insert target ⟨root, true⟩⟩, .view view)

/-- Keeps an array that was built under a name, as a nested array of `rank` dimensions. -/
def keepRanked (s : Store) (target : String) (rank : Nat)
    (built : Except Failure (Ref × Heap)) : Store × Reply :=
  s.keep target <| built.bind fun (array, heap) =>
    ((Root.guard (some array) rank).map fun root => (root, heap)).mapError .stopped

/-- Answers a question about a named root; there may be no answer. -/
def ask (s : Store) (name : String) (reply : Root → Option Reply) : Store × Reply :=
  match s.roots.find? name with
  | none => (s, .unknown name)
  | some held => (s, (reply held.root).getD .unreadable)

/-- Writes a cell of the array at a path, lists the nested array after that, and marks the
names that the write disturbs.  Nothing is written if there is no such array or cell, or
if the result could not be read. -/
def write (s : Store) (name : String) (path : List Nat) (index : Nat) (c : Cell)
    (disturbed : List String) : Store × Reply :=
  match s.roots.find? name with
  | none => (s, .unknown name)
  | some held =>
    let written := do
      let array ← s.heap.follow? held.root.array path
      let cells ← s.heap.block? array
      let _ ← cells[index]?
      let heap := s.heap.store array index c
      return (heap, ← held.root.tree? heap)
    match written with
    | none => (s, .unreadable)
    | some (heap, t) => (disturbed.foldl disturb { s with heap }, .listing t)

/-- Gives a name up, and its blocks back if it is intact. -/
def release (s : Store) (name : String) : Store × Reply :=
  match s.roots.find? name with
  | none => (s, .unknown name)
  | some held =>
    if held.intact then
      match held.root.release? s.heap with
      | none => (s, .unreadable)
      | some heap => (⟨heap, s.roots.erase name⟩, .released true)
    else ({ s with roots := s.roots.erase name }, .released false)

end Store

/-- Number of dimensions of an interior array over sub-arrays of the given shapes. -/
def Shape.rankOver (shapes : List Shape) : Nat := (shapes.headD []).rank + 1

namespace MemoryStep

/-- Carries out a step. -/
def run (s : Store) : MemoryStep → Logged (Store × Reply)
  | build target shape => return s.keep target (((Root.build shape).run s.heap).mapError .stopped)
  | call target c =>
    return s.keepRanked target c.extents.length ((← c.run s.heap).mapError .stopped)
  | tryBuild target request limits =>
    return s.keepRanked target request.length (← Heap.tryBuild limits request s.heap)
  | buildOver target extent shapes =>
    return s.keepRanked target (Shape.rankOver shapes) <|
      (((Heap.buildOver extent shapes).run s.heap).map fun ((array, _), heap) =>
        (array, heap)).mapError .stopped
  | list name => return s.ask name fun root => (root.tree? s.heap).map .listing
  | length name path =>
    return s.ask name fun root => do
      return .length (← s.heap.length? (← s.heap.follow? root.array path))
  | cells name path =>
    return s.ask name fun root => do
      return .cells (← s.heap.leaf? (← s.heap.follow? root.array path))
  | write name path index value =>
    return s.write name path index (.num value) (if index = lengthCell then [name] else [])
  | link name path index source sourcePath =>
    match s.roots.find? source with
    | none => return (s, .unknown source)
    | some held =>
      match s.heap.follow? held.root.array sourcePath with
      | none => return (s, .unreadable)
      | some target => return s.write name path index (.ref target) [name, source]
  | countShared name path =>
    return s.ask name fun root => do
      let subs ← s.heap.children? (← s.heap.follow? root.array path)
      return .shared subs.length (Root.countDistinct subs)
  | release name => return s.release name

end MemoryStep

end ArrayLayout
