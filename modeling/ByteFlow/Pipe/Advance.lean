/-
# One call of the transform of a pipe

A pipe advances by one call of its transform on the readable bytes of its source. The output goes to
the queue, the bytes that were used leave the source, and an incomplete unit at the end of the input
is given the most room there can be. None of this can be seen from outside while it happens, so it
is a function from a pipe to a pipe.
-/

import ByteFlow.Transform
import ByteFlow.World

namespace ByteFlow

/-- The outcome of one call of a pipe's transform. -/
structure Advanced (τ : Type) where
  pipe : Pipe τ
  /-- What there is to record, newest first. -/
  events : List Event
  /-- Whether there was progress; an error that ends the run; or a broken promise. -/
  outcome : Except Misuse (Except Error Bool)

/-- What an incomplete unit at the end of the input asks for. -/
inductive Remedy where
  /-- There was progress before the unit: the transform is called again. -/
  | again
  /-- The unit may only be cut by the end of the block: it is put together and tried again. -/
  | unwrap
  /-- There is room behind the unit: it waits for more bytes. -/
  | wait
  /-- The unit can never be assembled. -/
  | fatal
deriving DecidableEq, Repr, Inhabited

/-- Decides on an incomplete unit. Whether the source was wrapped or full is what was true before
the transform was called. -/
def Remedy.of (progress wrapped full movable : Bool) : Remedy :=
  if progress then .again
  else if wrapped then if movable then .unwrap else .fatal
  else if full then .fatal
  else .wait

namespace Pipe

variable {τ : Type}

/-- Moves the content of the source into one piece, if the source allows it. -/
def tidy (pipe : Pipe τ) : Pipe τ × List Event :=
  match pipe.source.defragment with
  | .ok source => ({ pipe with source }, Event.ofDefragment pipe.source)
  | .error _ => (pipe, [])

/-- Gives an incomplete unit what it asks for. -/
def applyRemedy (pipe : Pipe τ) (events : List Event) : Remedy → Advanced τ
  | .again => ⟨pipe.tidy.1, pipe.tidy.2 ++ events, .ok (.ok true)⟩
  | .unwrap =>
    ⟨pipe.tidy.1,
      pipe.tidy.2 ++ .logged (.sourceDefragmented pipe.direction pipe.source.used) :: events,
      .ok (.ok true)⟩
  | .wait => ⟨pipe.tidy.1, pipe.tidy.2 ++ events, .ok (.ok false)⟩
  | .fatal => ⟨pipe, events, .ok (.error .underflow)⟩

/-- Takes from the source what a step has consumed. Room appears in front of the transform if the
source was full. -/
def consume (pipe : Pipe τ) (consumed : Nat) : Pipe τ :=
  { pipe with
    source := pipe.source.discard consumed
    pendingWritable := pipe.pendingWritable || (0 < consumed && pipe.source.isFull) }

/-- Follows up on a step that did not fail: more cannot be consumed than there was. -/
def absorb (pipe : Pipe τ) (events : List Event) (step : Step) (emitted : Nat) : Advanced τ :=
  let available := pipe.source.readable.size
  let consumed := step.consumed
  if available < consumed then
    ⟨pipe, events, .ok (.error (.transform (some (.overconsumed consumed available))))⟩
  else
    let progress := 0 < consumed || 0 < emitted
    let rest := pipe.consume consumed
    let events := .logged (.transformed pipe.direction consumed emitted) :: events
    if step.isUnderflow then
      rest.applyRemedy events
        (.of progress (!pipe.source.isContiguous) pipe.source.isFull rest.source.canDefragment)
    else ⟨rest, events, .ok (.ok progress)⟩

/-- Whether the transform may be called: there are bytes to read, and the queue is below the
ceiling. -/
def isReady (pipe : Pipe τ) : Bool :=
  !pipe.source.isEmpty && pipe.queue.bytes < pipe.options.ceiling

/-- Calls the transform once on the readable bytes of the source. -/
def advance [Transform τ] (p : PipeId) (pipe : Pipe τ) : Advanced τ :=
  let input := pipe.source.readable
  let output := Output.new pipe.queue pipe.scratch pipe.options.ceiling
  let called := Transform.call pipe.transform input.toList output
  let after :=
    { pipe with
      transform := called.next
      queue := called.output.queue
      scratch := called.output.scratch }
  match called.result with
  | .error misuse =>
    ⟨after, .stopped p input output.headroom called.output.chunks :: called.output.events,
      .error misuse⟩
  | .ok step =>
    let events :=
      .transformed p input output.headroom step called.output.chunks called.output.headroom ::
        called.output.events
    match step with
    | .errored cause => ⟨after, events, .ok (.error (.transform (some cause)))⟩
    | step => after.absorb events step called.output.emitted

end Pipe

end ByteFlow
