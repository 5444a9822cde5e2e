/-
# Storing into a shared ring

A store that takes a ring from empty to holding bytes makes it readable, and its observers are told
once the store is over. A store that ends with an error tells nobody.
-/

import ByteFlow.Pipe.Life
import ByteFlow.Ring.Transfer

namespace ByteFlow.SharedRing

open Machine

variable {τ ω : Type} [Inhabited τ]

/-- Tells the observers that a ring has now that it turned readable. -/
def fireReadable (o : Owner τ ω) (id : RingId) : Machine τ ω Unit := do
  record (.fired (.ring id) .readable)
  (← getShared id).observers.forM fun
    | .listener p => Pipe.listenReadable o p
    | .handler h => tell o (.ring id) .readable h

/-- Stores as much of `data` as fits. -/
def store (o : Owner τ ω) (id : RingId) (data : Bytes) : Machine τ ω (Except Error Nat) := do
  let (result, turned) ← updateRing id fun ring =>
    let wasEmpty := ring.isEmpty
    let (ring, result) := ring.store data
    ((result, wasEmpty && !ring.isEmpty), ring)
  match result with
  | .error e => return .error e
  | .ok count =>
    if turned then fireReadable o id
    return .ok count

/-- Stores as many bytes from a source as fit. -/
def storeFrom (o : Owner τ ω) (id : RingId) (source : Source (Machine τ ω)) :
    Machine τ ω (Except Error Stored) := do
  let before ← getRing id
  let intake ← before.storeFrom source
  setRing id intake.ring
  match intake.result with
  | .error e => return .error e
  | .ok stored =>
    if before.isEmpty && !intake.ring.isEmpty then fireReadable o id
    return .ok stored

/-- A shared ring as a sink: it takes as much as fits. -/
def sink (o : Owner τ ω) (id : RingId) : Sink (Machine τ ω) := ⟨store o id⟩

end ByteFlow.SharedRing
