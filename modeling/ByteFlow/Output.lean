/-
# The output of a transform

A transform pushes chunks of bytes, each of which becomes a segment of the queue. The queue is
bounded by a ceiling: a chunk is accepted if it fits below the ceiling, or if the queue is empty,
so that one unit larger than the ceiling can still get through. A scratch buffer that keeps its
content between calls serves to put chunks together.

The output also keeps what was pushed through it and what there is to record, newest first.
-/

import ByteFlow.Journal
import ByteFlow.Queue

namespace ByteFlow

/-- The output that a transform is given. -/
structure Output where
  /-- The queue that chunks go to. -/
  queue : Queue
  /-- The scratch buffer; it only grows, until it is discarded. -/
  scratch : Block
  /-- The number of bytes that may wait in the queue. -/
  ceiling : Nat
  /-- The chunks pushed through this output, newest first. -/
  pushed : List Bytes
  /-- What happened along the way, newest first. -/
  events : List Event

namespace Output

/-- An output through which nothing was pushed yet. -/
def new (queue : Queue) (scratch : Block) (ceiling : Nat) : Output :=
  { queue, scratch, ceiling, pushed := [], events := [] }

/-- How many bytes fit below the ceiling. -/
def headroom (o : Output) : Nat := o.ceiling - o.queue.bytes

/-- Whether a chunk of that length would be accepted. -/
def fits (o : Output) (length : Nat) : Bool := o.queue.isEmpty || length ≤ o.headroom

/-- The chunks pushed through this output, oldest first. -/
def chunks (o : Output) : List Bytes := o.pushed.reverse

/-- The number of bytes pushed through this output. -/
def emitted (o : Output) : Nat := Bytes.count o.pushed

/-- Pushes a chunk. Empty chunks are left out. -/
def push (o : Output) (chunk : Bytes) : Except Error Output :=
  if chunk.isEmpty then .ok o
  else if o.fits chunk.length then
    .ok { o with queue := o.queue.pushBack (.wrap chunk), pushed := chunk :: o.pushed }
  else .error .ceiling

/-- Pushes a chunk, and gives back the output in any case: a chunk that is refused leaves it as it
was. -/
def offer (o : Output) (chunk : Bytes) : Output × Except Error Unit :=
  match o.push chunk with
  | .ok o => (o, .ok ())
  | .error e => (o, .error e)

/-- Grows the scratch buffer with zeros to at least that length, which a block can have. -/
def reserve (o : Output) (length : Nat) : Output :=
  if o.scratch.size < length then
    { o with
      scratch := o.scratch.append (List.replicate (length - o.scratch.size) 0)
      events := .logged (.scratchGrown o.scratch.size length) :: o.events }
  else o

/-- Grows the scratch buffer to at least that length, if a block can have it. The log has the
attempt in either case. -/
def demand (o : Output) (length : Nat) : Output × Except Misuse Unit :=
  match Block.request length with
  | .ok () => (o.reserve length, .ok ())
  | .error misuse =>
    ({ o with events := .logged (.scratchGrown o.scratch.size length) :: o.events }, .error misuse)

/-- Overwrites the start of the scratch buffer, as far as it reaches. -/
def overwrite (o : Output) (data : Bytes) : Output :=
  { o with scratch := o.scratch.write 0 (data.take o.scratch.size) }

/-- Pushes a copy of the first `length` bytes of the scratch buffer, which grows if it has to,
also when the chunk is refused. -/
def pushScratch (o : Output) (length : Nat) : Output × Except Error Unit :=
  let o := o.reserve length
  o.offer (o.scratch.slice 0 length).toList

/-- Gives the scratch buffer back. -/
def discardScratch (o : Output) : Output := { o with scratch := .empty }

/-- Puts an event on record. -/
def record (o : Output) (event : Event) : Output := { o with events := event :: o.events }

end Output

end ByteFlow
