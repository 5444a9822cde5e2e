/-
# Writing out of a shared ring

Writing out that takes a ring from full to having room makes it writable, and its observers are told
once the writing is over; the listener of a pipe resumes the pipe then. Writing that ends with an
error tells nobody, even if it has made room.
-/

import ByteFlow.Pipe.Run

namespace ByteFlow.SharedRing

open Machine

variable {τ ω : Type} [Inhabited τ]

/-- Tells the observers that a ring has now that it turned writable. -/
def fireWritable [Transform τ] (o : Owner τ ω) (id : RingId) : Machine τ ω Unit := do
  record (.fired (.ring id) .writable)
  (← getShared id).observers.forM fun
    | .listener p => Pipe.listenWritable o p
    | .handler h => tell o (.ring id) .writable h

/-- Writes at most `max` bytes into a sink. -/
def writeTo [Transform τ] (o : Owner τ ω) (id : RingId) (sink : Sink (Machine τ ω))
    (max : Nat) : Machine τ ω (Except Error Nat) := do
  let before ← getRing id
  let outflow ← before.writeTo sink max
  setRing id outflow.ring
  record (.delivered id outflow.moved)
  match outflow.result with
  | .error e => return .error e
  | .ok written =>
    if before.free = 0 ∧ 0 < written then fireWritable o id
    return .ok written

/-- Drops all content; nobody is told. -/
def clear (id : RingId) : Machine τ ω Unit := do setRing id (← getRing id).clear

/-- Drops all content and gives the cells back; nobody is told. -/
def clean (id : RingId) : Machine τ ω Unit := do setRing id (← getRing id).clean

/-- Moves the content into one piece. -/
def defragment (id : RingId) : Machine τ ω (Except Error Unit) := do
  match ← Machine.defragment (← getRing id) with
  | .error e => return .error e
  | .ok ring =>
    setRing id ring
    return .ok ()

/-- Makes a shared ring. -/
def create (ring : Ring) : Machine τ ω RingId := do
  let id := (← get).rings.next
  modifyShared id fun _ => ⟨ring, []⟩
  return id

end ByteFlow.SharedRing
