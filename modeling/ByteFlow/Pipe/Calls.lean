/-
# Calls of a pipe

What the owner of a pipe can do with it: make it, store into it, write out of its destination,
switch the destination to another ring, and give its memory back.

Storing reports the failure of a pipe that has failed, also one that fails during this very call.
A switch is refused without effect unless the destination is empty and the other ring has its
capacity and kind of region.
-/

import ByteFlow.SharedRing.Write

namespace ByteFlow.Pipe

open Machine

variable {τ ω : Type} [Inhabited τ]

/-- Makes a pipe into a ring. Its source has to be a ring that can be made. The listener is attached
before the log says so. -/
def create (direction : Direction) (destination : RingId) (transform : τ)
    (options : PipeOptions) : Machine τ ω (Except Error PipeId) := do
  match options.validate with
  | .error e => return .error e
  | .ok () =>
    let ring ← getRing destination
    let capacity := options.sourceCapacity.getD ring.capacity
    if capacity = 0 then
      return .error (.other (.other "create pipeline") "source capacity must be non-zero" none)
    else
      let source ← insist (Ring.create capacity options.sourceRegion)
      let p := (← get).pipes.next
      modifyPipe p fun _ => .new direction options source transform destination
      record (.opened p destination ring.used)
      attach destination (.listener p)
      log (.pipeCreated direction capacity ring.capacity options.ceiling)
      return .ok p

/-- The failure of a pipe, as an error of storing into it. -/
def failureCheck (p : PipeId) : Machine τ ω (Except Error Unit) := do
  match (← getPipe p).failure with
  | some kind => return .error ⟨.store, kind, none⟩
  | none => return .ok ()

/-- Stores as many bytes from a source as fit into the source of the pipe, then runs the pipe. -/
def storeFrom [Transform τ] (o : Owner τ ω) (p : PipeId) (source : Source (Machine τ ω)) :
    Machine τ ω (Except Error Stored) :=
  during p do
    match ← failureCheck p with
    | .error e => return .error e
    | .ok () =>
      let intake ← (← getPipe p).source.storeFrom source
      modifyPipe p fun pipe => { pipe with source := intake.ring }
      record (.received p intake.moved)
      match intake.result with
      | .error e => return .error e
      | .ok stored =>
        if stored.isEos then log (.sourceEnded (← getPipe p).direction)
        run o p
        match ← failureCheck p with
        | .error e => return .error e
        | .ok () => return .ok stored

/-- Writes at most `max` bytes of the destination into a sink. -/
def writeTo [Transform τ] (o : Owner τ ω) (p : PipeId) (sink : Sink (Machine τ ω))
    (max : Nat) : Machine τ ω (Except Error Nat) :=
  during p do SharedRing.writeTo o (← getPipe p).destination sink max

/-- Why a ring cannot take the place of another, if it cannot. -/
def switchRefusal (current candidate : Ring) : Option Error :=
  if current.used ≠ 0 then some (.rejected "the destination buffer is not empty")
  else if current.capacity ≠ candidate.capacity then
    some (.rejected "the buffer capacities differ")
  else if current.region ≠ candidate.region then
    some (.rejected "the buffer region kinds differ")
  else none

/-- A ring can take the place of an empty one that is like it. -/
theorem switchRefusal_eq_none_iff {current candidate : Ring} :
    switchRefusal current candidate = none ↔
      current.used = 0 ∧ current.capacity = candidate.capacity ∧
        current.region = candidate.region := by
  unfold switchRefusal
  by_cases drained : current.used = 0
  · by_cases capacity : current.capacity = candidate.capacity
    · by_cases region : current.region = candidate.region
      · simp [drained, capacity, region]
      · simp [drained, capacity, region]
    · simp [drained, capacity]
  · simp [drained]

/-- Puts another ring in the place of the destination, runs the pipe, and gives back the ring that
was the destination before. -/
def switchTo [Transform τ] (o : Owner τ ω) (p : PipeId) (candidate : RingId) :
    Machine τ ω (Except Error RingId) :=
  during p do
    let pipe ← getPipe p
    let ring ← getRing candidate
    match switchRefusal (← getRing pipe.destination) ring with
    | some e => return .error e
    | none =>
      detach pipe.destination (.listener p)
      modifyPipe p fun pipe => { pipe with destination := candidate }
      record (.redirected p candidate ring.used)
      attach candidate (.listener p)
      log (.switched pipe.direction ring.capacity pipe.queue.bytes)
      run o p
      return .ok pipe.destination

/-- Registers a handler for the edges of a pipe. -/
def addHandler (p : PipeId) (handler : HandlerId) : Machine τ ω Unit :=
  modifyPipe p fun pipe => { pipe with handlers := enlist pipe.handlers handler }

/-- Takes a handler from a pipe. -/
def removeHandler (p : PipeId) (handler : HandlerId) : Machine τ ω Unit :=
  modifyPipe p fun pipe => { pipe with handlers := pipe.handlers.filter (· ≠ handler) }

/-- Drops the content of the destination. -/
def clear (p : PipeId) : Machine τ ω Unit := do SharedRing.clear (← getPipe p).destination

/-- Gives back the memory of the pipe: queue, scratch buffer, source and destination. -/
def clean (p : PipeId) : Machine τ ω Unit := do
  modifyPipe p fun pipe =>
    { pipe with queue := pipe.queue.clear, scratch := .empty, source := pipe.source.clean }
  SharedRing.clean (← getPipe p).destination
  log (.pipeCleaned (← getPipe p).direction)

end ByteFlow.Pipe
