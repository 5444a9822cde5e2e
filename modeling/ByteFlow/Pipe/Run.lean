/-
# Runs of a pipe

A run moves bytes as far as they go. It drains the queue into the destination and calls the
transform on the source, in turn, until neither does anything; each of the two may be interrupted
by handlers that call the pipe again.

Only one run of a pipe is in progress at a time: a run that is started inside another one returns
at once, and the outer one looks at everything again before it ends. When a run ends, in whatever
way, the pipe stops operating first; then, if the run made room in front of the transform, the pipe
turns writable. A run that is stopped by a broken promise tells nobody.

A terminal error is recorded once and told to the handlers; a pipe that has failed does nothing on
later runs.
-/

import ByteFlow.Pipe.Advance
import ByteFlow.SharedRing.Store

namespace ByteFlow.Pipe

open Machine

variable {τ ω : Type} [Inhabited τ]

/-- Whether neither draining nor transforming could do anything. -/
def isSettled (p : PipeId) : Machine τ ω Bool := do
  let pipe ← getPipe p
  let destination ← getRing pipe.destination
  return (pipe.queue.isEmpty || destination.free == 0) && !pipe.isReady

/-- How draining the queue ended. -/
inductive Drained where
  /-- The pipe was cleaned by a handler in the meantime. -/
  | cleaned
  /-- So many bytes went into the destination. -/
  | moved (count : Nat)
deriving DecidableEq, Repr, Inhabited

/-- Drains segments into `destination` until it is full, the queue is empty, nothing is taken, or a
handler has switched the destination. The head segment is out of the queue while it is written, as
far as there is room, and comes back with what is left of it. -/
def drainInto (o : Owner τ ω) (p : PipeId) (destination : RingId) :
    (passes count : Nat) → Machine τ ω (Except Error Drained)
  | 0, _ => throw .exhausted
  | passes + 1, count => do
    let pipe ← getPipe p
    let room := (← getRing destination).free
    if room = 0 ∨ pipe.destination ≠ destination then
      return .ok (.moved count)
    else
      match pipe.queue.popFront with
      | none => return .ok (.moved count)
      | some (segment, rest) =>
        modifyPipe p fun pipe => { pipe with queue := rest }
        let outflow ← segment.writeTo (SharedRing.sink o destination) room
        if (← getPipe p).source.cleaned then
          log (.cleanedWhileDraining pipe.direction)
          return .ok .cleaned
        else
          modifyPipe p fun pipe => { pipe with queue := pipe.queue.pushFront outflow.ring }
          match outflow.result with
          | .error e => return .error e
          | .ok written =>
            if outflow.ring.isEmpty then
              modifyPipe p fun pipe => { pipe with pendingWritable := true }
            if written = 0 then return .ok (.moved count)
            else drainInto o p destination passes (count + written)

/-- Drains the queue into the destination that the pipe has now, and says whether bytes moved. -/
def drain (o : Owner τ ω) (p : PipeId) : Machine τ ω (Except Error Bool) := do
  let pipe ← getPipe p
  match ← drainInto o p pipe.destination o.passes 0 with
  | .error e => return .error e
  | .ok .cleaned => return .ok false
  | .ok (.moved count) =>
    if 0 < count then log (.drained pipe.direction count)
    return .ok (0 < count)

/-- Calls the transform once, unless there is nothing to read or the queue has reached the ceiling,
and says whether there was progress. -/
def transformOnce [Transform τ] (p : PipeId) : Machine τ ω (Except Error Bool) := do
  let pipe ← getPipe p
  if pipe.isReady then
    let advanced := pipe.advance p
    modifyPipe p fun _ => advanced.pipe
    recordAll advanced.events
    insist advanced.outcome
  else return .ok false

/-- Drains and transforms in turn until neither does anything. -/
def settle [Transform τ] (o : Owner τ ω) (p : PipeId) :
    (passes : Nat) → Machine τ ω (Except Error Unit)
  | 0 => throw .exhausted
  | passes + 1 => do
    if ← isSettled p then return .ok ()
    else
      match ← drain o p with
      | .error e => return .error e
      | .ok drained =>
        match ← transformOnce p with
        | .error e => return .error e
        | .ok transformed =>
          if drained || transformed then settle o p passes else return .ok ()

/-- Ends a run with an error. A terminal error is recorded, and the handlers are told of it; any
other error only shows in the log. -/
def fail (o : Owner τ ω) (p : PipeId) (e : Error) : Machine τ ω Unit := do
  let pipe ← getPipe p
  if e.kind.isTerminal then
    log (.streamFailed pipe.direction e)
    modifyPipe p fun pipe => { pipe with failure := some e.kind }
    emit o p (.error e)
  else log (.runAborted pipe.direction e)

/-- Stops operating, and says whether the run has made room. -/
def release (p : PipeId) : Machine τ ω Bool := do
  let pipe ← getPipe p
  modifyPipe p fun pipe => { pipe with operating := false, pendingWritable := false }
  record (.ended p pipe.pendingWritable pipe.handlers)
  return pipe.pendingWritable

/-- What happens while a pipe operates. -/
def operate [Transform τ] (o : Owner τ ω) (p : PipeId) : Machine τ ω Unit := do
  if (← getPipe p).failure.isNone then
    match ← settle o p o.passes with
    | .error e => fail o p e
    | .ok () => pure ()

/-- Runs a pipe, unless a run is in progress. -/
def run [Transform τ] (o : Owner τ ω) (p : PipeId) : Machine τ ω Unit :=
  during p do
    let pipe ← getPipe p
    if pipe.operating then log (.runInProgress pipe.direction)
    else
      modifyPipe p fun pipe => { pipe with operating := true }
      record (.started p)
      tryCatch (operate o p) fun halt => do
        let _ ← release p
        throw halt
      if ← release p then emit o p .writable

/-- The listener of a pipe is told that the destination turned writable, and runs the pipe. -/
def listenWritable [Transform τ] (o : Owner τ ω) (p : PipeId) : Machine τ ω Unit := do
  if (← getPipe p).isAlive then run o p

end ByteFlow.Pipe
