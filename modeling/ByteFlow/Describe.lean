/-
# Descriptions

The state of a buffer, a queue or a pipe in words, for reports. Content is left out: a description
shows sizes and flags only.
-/

import ByteFlow.World

namespace ByteFlow

/-- A named group of fields in braces. -/
def describeFields (name : String) (fields : List (String × String)) : String :=
  name ++ " \x7b " ++
    ", ".intercalate (fields.map fun field =>
      if field.2.isEmpty then field.1 else field.1 ++ ": " ++ field.2) ++ " \x7d"

/-- A shared value behind the cell that holds it. -/
def describeCell (value : String) : String := describeFields "RefCell" [("value", value)]

/-- What stands for a value that is lent out and cannot be looked at. -/
def lentText : String := "<borrowed>"

/-- A set of handlers by its size. -/
def describeHandlers (count : Nat) : String := "Handlers(" ++ toString count ++ ")"

/-- A region by its kind. -/
def Region.describe : Region → String
  | .heap => "Heap"
  | .fixed => "Fixed"

/-- A direction by its name. -/
def Direction.describe : Direction → String
  | .unwrap => "Unwrap"
  | .wrap => "Wrap"

/-- A ring by its sizes and flags. -/
def Ring.describe (r : Ring) : String :=
  describeFields "ByteRing"
    [("capacity", toString r.capacity), ("head", toString r.head), ("len", toString r.used),
      ("region", r.region.describe), ("cleaned", toString r.cleaned), ("..", "")]

/-- A queue by its segments. -/
def Queue.describe (q : Queue) : String :=
  describeFields "IntermediateQueue"
    [("segments", "[" ++ ", ".intercalate (q.segments.map Ring.describe) ++ "]"),
      ("bytes", toString q.bytes)]

/-- A shared ring by its ring, unless that is lent out, and the number of its observers. -/
def SharedRing.describe (shared : SharedRing) (lent : Bool) : String :=
  describeFields "SharedRing"
    [("ring", describeCell (if lent then lentText else shared.ring.describe)),
      ("handlers", describeHandlers shared.observers.length)]

/-- A pipe by its buffers and flags; `lent` says whether the ring of its destination is lent out. -/
def Pipe.describe {τ : Type} (pipe : Pipe τ) (destination : SharedRing) (lent : Bool) : String :=
  describeFields "Pipeline"
    [("direction", pipe.direction.describe),
      ("source", describeCell pipe.source.describe),
      ("queue", describeCell pipe.queue.describe),
      ("destination", describeCell (destination.describe lent)),
      ("handlers", describeHandlers pipe.handlers.length),
      ("operating", toString pipe.operating),
      ("failure",
        match pipe.failure with
        | none => "None"
        | some kind => "Some(" ++ kind.name ++ ")"),
      ("..", "")]

end ByteFlow
