/-
The log: what is reported, and results that carry their reports.

* `Event` — the three things that are ever reported;
* `Event.level`, `Event.origin`, `Event.message`, `Event.fields` — how a report is written;
* `Logged` — a result together with the events on the way to it, in order.
-/
import ArrayLayout.Rejection
import ArrayLayout.Shape

namespace ArrayLayout

/-- A report to the log. -/
inductive Event where
  /-- A request with `rank` extents was turned down. -/
  | rejected (rank : Nat) (reason : Rejection)
  /-- A request was admitted, and this is going to be built. -/
  | allocating (shape : Shape) (arrays cells : Nat)
  /-- An entry point was called with these arguments. -/
  | called (entry : String) (arguments : List (String × Int))
  deriving DecidableEq

namespace Event

/-- How urgent a report is. -/
inductive Level where
  | trace
  | debug
  | warn
  deriving DecidableEq

/-- Which part reports. -/
inductive Origin where
  | builder
  | entry
  deriving DecidableEq

/-- What a report says under one name. -/
inductive Value where
  | number (n : Int)
  | text (s : String)
  deriving DecidableEq

/-- Urgency of a report. -/
def level : Event → Level
  | rejected .. => .warn
  | allocating .. => .debug
  | called .. => .trace

/-- The part that a report comes from. -/
def origin : Event → Origin
  | rejected .. => .builder
  | allocating .. => .builder
  | called .. => .entry

/-- The sentence of a report.  Calls are reported by the name of the entry point. -/
def message : Event → String
  | rejected .. => "rejected nested array request"
  | allocating .. => "allocating nested array"
  | called entry _ => entry

/-- The details of a report, by name. -/
def fields : Event → List (String × Value)
  | rejected rank reason => [("rank", .number rank), ("error", .text reason.message)]
  | allocating shape arrays cells =>
    [("dims", .text shape.text), ("arrays", .number arrays), ("cells", .number cells)]
  | called _ arguments => arguments.map fun a => (a.1, .number a.2)

end Event

/-- A result with the events on the way to it. -/
structure Logged (α : Type) where
  /-- The events, first one first. -/
  events : List Event
  result : α

namespace Logged

/-- A report with no result. -/
def report (e : Event) : Logged Unit := ⟨[e], ()⟩

instance : Monad Logged where
  pure a := ⟨[], a⟩
  bind x f := ⟨x.events ++ (f x.result).events, (f x.result).result⟩

@[simp] theorem events_pure {α : Type} (a : α) : (pure a : Logged α).events = [] := rfl

@[simp] theorem result_pure {α : Type} (a : α) : (pure a : Logged α).result = a := rfl

@[simp] theorem events_bind {α β : Type} (x : Logged α) (f : α → Logged β) :
    (x >>= f).events = x.events ++ (f x.result).events := rfl

@[simp] theorem result_bind {α β : Type} (x : Logged α) (f : α → Logged β) :
    (x >>= f).result = (f x.result).result := rfl

end Logged

end ArrayLayout
