/-
# The queue between a transform and its destination

Chunks of output wait as full rings, called segments, in the order in which they were pushed. The
head segment may come back partly drained. Empty segments are never kept, and the number of waiting
bytes is counted along the way.
-/

import ByteFlow.Ring

namespace ByteFlow

/-- Output chunks that wait for room in the destination. Segments join at the back and leave at the
front, so the back is kept the other way round. -/
structure Queue where
  /-- The segments that are drained first, in order. -/
  front : List Ring
  /-- The segments that are drained after those, the last one first. -/
  back : List Ring
  /-- The number of bytes in all segments. -/
  bytes : Nat
deriving DecidableEq, Repr

namespace Queue

def empty : Queue := ⟨[], [], 0⟩

instance : Inhabited Queue := ⟨empty⟩

/-- The waiting segments; the first is drained first. -/
def segments (q : Queue) : List Ring := q.front ++ q.back.reverse

/-- The number of waiting segments. -/
def length (q : Queue) : Nat := q.front.length + q.back.length

def isEmpty (q : Queue) : Bool := q.front.isEmpty && q.back.isEmpty

/-- The waiting bytes, in order. -/
def toList (q : Queue) : Bytes := q.segments.flatMap Ring.toList

/-- Appends a segment, unless it is empty. -/
def pushBack (q : Queue) (segment : Ring) : Queue :=
  if segment.isEmpty then q
  else { q with back := segment :: q.back, bytes := q.bytes + segment.used }

/-- Puts a segment back in front of all others, unless it is empty. -/
def pushFront (q : Queue) (segment : Ring) : Queue :=
  if segment.isEmpty then q
  else { q with front := segment :: q.front, bytes := q.bytes + segment.used }

/-- Takes the head segment out. -/
def popFront (q : Queue) : Option (Ring × Queue) :=
  match q.front with
  | segment :: front => some (segment, ⟨front, q.back, q.bytes - segment.used⟩)
  | [] =>
    match q.back.reverse with
    | [] => none
    | segment :: front => some (segment, ⟨front, [], q.bytes - segment.used⟩)

/-- Drops all segments. -/
def clear (_ : Queue) : Queue := empty

end Queue

end ByteFlow
