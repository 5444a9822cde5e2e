/-
# Byte rings

A ring holds at most `capacity` bytes in a circle of cells. Its content begins at `head` and goes
round the end of the circle at most once, so content and free space each consist of at most two
spans. `Ring.toList` is the content in order; it is what every operation is about, and where the
content lies matters only to `spans`, `freeSpans` and `defragment`.

Emptying a ring by `discard` puts its head back to the first cell. A cell takes up memory only once
it was written, so a large ring costs no more than what has gone through it.
-/

import ByteFlow.Block
import ByteFlow.Error

namespace ByteFlow

/-- The kind of memory behind a ring. -/
inductive Region where
  /-- Memory whose content may be moved. -/
  | heap
  /-- Memory whose content stays where it was written. -/
  | fixed
deriving DecidableEq, Repr, Inhabited

namespace Region

/-- Whether content may be moved. -/
def isRelocatable : Region → Bool
  | .heap => true
  | .fixed => false

/-- The region as it is written in reports. -/
def text : Region → String
  | .heap => "heap"
  | .fixed => "fixed"

end Region

/-- A circle of cells that hold bytes. -/
structure Ring where
  /-- The cells up to the last that was ever written, or none once the ring was cleaned. -/
  cells : Block
  /-- How many bytes fit. -/
  capacity : Nat
  /-- The cell of the first byte of content. -/
  head : Nat
  /-- How many bytes are held. -/
  used : Nat
  region : Region
  /-- Whether the block was given back; nothing can be stored or written after that. -/
  cleaned : Bool
deriving DecidableEq, Repr

namespace Ring

/-- An empty ring. -/
def empty (capacity : Nat) (region : Region) : Ring :=
  { cells := .empty, capacity, head := 0, used := 0, region, cleaned := false }

/-- An empty ring, if a block can have that many cells. -/
def create (capacity : Nat) (region : Region) : Except Misuse Ring := do
  Block.request capacity
  return empty capacity region

instance : Inhabited Ring := ⟨empty 0 .heap⟩

/-- A full ring that holds exactly the given bytes. -/
def wrap (chunk : Bytes) : Ring :=
  { cells := .ofList chunk, capacity := chunk.length, head := 0, used := chunk.length,
    region := .heap, cleaned := false }

/-- How many more bytes fit. -/
def free (r : Ring) : Nat := r.capacity - r.used

def isEmpty (r : Ring) : Bool := r.used == 0

def isFull (r : Ring) : Bool := r.used == r.capacity

/-- Whether the content lies in one piece. -/
def isContiguous (r : Ring) : Bool := r.head + r.used ≤ r.capacity

/-- How much of the content lies before the end of the circle. -/
def usedToEnd (r : Ring) : Nat := min r.used (r.capacity - r.head)

/-- The pieces of the content, in order, by first cell and length; the second is empty unless the
content wraps. -/
def usedSpans (r : Ring) : List (Nat × Nat) :=
  [(r.head, r.usedToEnd), (0, r.used - r.usedToEnd)]

/-- The first piece of the content: all of it if the content is contiguous. -/
def readable (r : Ring) : Block := r.cells.slice r.head r.usedToEnd

/-- The two pieces of the content, in order. -/
def spans (r : Ring) : Block × Block := (r.readable, r.cells.slice 0 (r.used - r.usedToEnd))

/-- The content, in order. -/
def toList (r : Ring) : Bytes := r.spans.1.toList ++ r.spans.2.toList

/-- The cell after the last byte of content. -/
def tail (r : Ring) : Nat := (r.head + r.used) % r.capacity

/-- The lengths of the pieces of free space, in the order in which they are filled. -/
def freeSpans (r : Ring) : List Nat :=
  if r.isFull then []
  else if r.head ≤ r.tail then [r.capacity - r.tail, r.head].filter (0 < ·)
  else [r.head - r.tail]

/-- Writes bytes into the free cells behind the content. They have to fit the first free span. -/
def fill (r : Ring) (data : Bytes) : Ring :=
  { r with cells := r.cells.write r.tail data, used := r.used + data.length }

/-- Writes as much of `data` as fits into free spans of the given lengths. -/
def fillSpans (r : Ring) : List Nat → Bytes → Ring
  | [], _ => r
  | n :: lengths, data => (r.fill (data.take n)).fillSpans lengths (data.drop n)

/-- Drops bytes from the front. There have to be that many. -/
def discard (r : Ring) (count : Nat) : Ring :=
  { r with
    used := r.used - count
    head := if r.used - count = 0 then 0 else (r.head + count) % r.capacity }

/-- Drops bytes from the front; to drop more than there are is a misuse. -/
def consume (r : Ring) (count : Nat) : Except Misuse Ring :=
  if count ≤ r.used then .ok (r.discard count) else .error (.overdrawn count r.used)

/-- Appends as much of `data` as fits, and says how much that was. -/
def store (r : Ring) (data : Bytes) : Ring × Except Error Nat :=
  if r.cleaned then (r, .error (.closed .store))
  else
    let count := min data.length r.free
    (r.fillSpans r.freeSpans data, .ok count)

/-- Drops all content. -/
def clear (r : Ring) : Ring := { r with head := 0, used := 0 }

/-- Drops all content and gives the cells back. -/
def clean (r : Ring) : Ring :=
  if r.cleaned then r else { r.clear with cells := .empty, cleaned := true }

/-- Whether the content can be moved into one piece. -/
def canDefragment (r : Ring) : Bool := r.region.isRelocatable && !r.cleaned

/-- Moves the content to the first cells, so that content and free space are each in one piece. -/
def defragment (r : Ring) : Except Error Ring :=
  if r.cleaned then .error (.closed .defragment)
  else if r.region.isRelocatable then
    .ok { r with cells := r.cells.rotate r.head, head := 0 }
  else .error (.unsupported .defragment)

end Ring

end ByteFlow
