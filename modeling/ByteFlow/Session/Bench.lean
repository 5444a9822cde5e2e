/-
# The things of a session

Every thing has a number of its own, and names refer to numbers. Shared rings, pipes and handlers
are known to the world, and may be used again from inside a call that uses them. All other things
belong to the session alone; one of them that a call is using is out of reach until the call ends.
A shared ring stays within reach, but while a sink takes bytes from it, it is lent to that sink and
does not show its content.
-/

import ByteFlow.Pipe.Calls
import ByteFlow.Session.Command

namespace ByteFlow.Session

/-- What a name can refer to. -/
inductive Thing where
  | byteRing (ring : Ring)
  | basicRing (ring : Ring)
  | sharedRing (id : RingId)
  | queue (queue : Queue)
  | handlers (members : List HandlerId)
  | handler (id : HandlerId)
  | source (feed : Feed)
  | sink (outlet : Outlet)
  | pipe (id : PipeId)

instance : Inhabited Thing := ⟨.queue .empty⟩

/-- A handler of the session. -/
structure Handler where
  /-- The name it was made with, which it keeps in reports. -/
  name : String
  /-- Whether it is told of errors. -/
  seesErrors : Bool
  readable : Option (List Command)
  writable : Option (List Command)
  error : Option (List Command)
  /-- How many more times it runs commands, if there is a limit. -/
  runs : Option Nat

instance : Inhabited Handler := ⟨⟨"", false, none, none, none, none⟩⟩

/-- The commands that a handler has for an edge. -/
def Handler.commands (handler : Handler) : Edge → Option (List Command)
  | .readable => handler.readable
  | .writable => handler.writable
  | .error _ => if handler.seesErrors then handler.error else none

/-- Everything that a session keeps besides the world. -/
structure Bench where
  things : Table Thing
  names : List (String × Nat)
  /-- The numbers of the things that a call is using. -/
  inUse : List Nat
  /-- The shared rings that are lent to a sink, the latest first. -/
  lent : List RingId
  handlers : Table Handler
  /-- The names that pipes were made with. -/
  pipeNames : Table String

/-- Nothing has been made yet. -/
def Bench.empty : Bench := ⟨.empty, [], [], [], .empty, .empty⟩

/-- A computation of a session. -/
abbrev Work := Machine Stage Bench

namespace Work

def bench : Work Bench := return (← get).owner

def modifyBench (f : Bench → Bench) : Work Unit := modify fun w => { w with owner := f w.owner }

/-- The number and the thing behind a name, unless the thing is in use. -/
def find (name : String) : Work (Option (Nat × Thing)) := do
  let bench ← bench
  match bench.names.lookup name with
  | none => return none
  | some id => return if id ∈ bench.inUse then none else some (id, bench.things.get id)

def getThing (id : Nat) : Work Thing := return (← bench).things.get id

def putThing (id : Nat) (thing : Thing) : Work Unit :=
  modifyBench fun b => { b with things := b.things.set id thing }

/-- Gives a thing a number. -/
def addThing (thing : Thing) : Work Nat := do
  let id := (← bench).things.next
  putThing id thing
  return id

/-- Lets a name go, and with it a pipe that it refers to. -/
def forget (name : String) : Work Unit := do
  let bench ← bench
  match bench.names.lookup name with
  | none => pure ()
  | some id =>
    modifyBench fun b => { b with names := b.names.filter (·.1 ≠ name) }
    match bench.things.get id with
    | .pipe p => Pipe.drop p
    | _ => pure ()

/-- Gives a thing a name. A thing that had the name before is let go. -/
def christen (name : String) (thing : Thing) : Work Unit := do
  let id ← addThing thing
  forget name
  modifyBench fun b => { b with names := (name, id) :: b.names }

/-- Keeps things out of reach while `body` runs. -/
def occupying {α : Type} (ids : List Nat) (body : Work α) : Work α := do
  modifyBench fun b => { b with inUse := ids ++ b.inUse }
  Machine.ensuring body do
    modifyBench fun b => { b with inUse := b.inUse.filter (· ∉ ids) }

/-- The source that a thing is. -/
def source (id : Nat) : Source Work where
  read wanted := do
    match ← getThing id with
    | .source feed =>
      let called := feed.read wanted
      putThing id (.source called.stream)
      Machine.recordAll called.events.reverse
      return called.result
    | _ => return .ok []
  isEnded := do
    match ← getThing id with
    | .source feed => return feed.isEnded
    | _ => return true

/-- The sink that a thing is. -/
def sink (id : Nat) : Sink Work where
  write offered := do
    match ← getThing id with
    | .sink outlet =>
      let called := outlet.write offered
      putThing id (.sink called.stream)
      Machine.recordAll called.events.reverse
      return called.result
    | _ => return .ok 0

/-- A sink that a shared ring is written into: the ring is lent to it while it takes bytes. -/
def lending (ring : RingId) (target : Sink Work) : Sink Work where
  write offered := do
    modifyBench fun b => { b with lent := ring :: b.lent }
    Machine.ensuring (target.write offered) do
      modifyBench fun b => { b with lent := b.lent.erase ring }

/-- Whether a shared ring is lent to a sink at this moment. -/
def isLent (ring : RingId) : Work Bool := return ring ∈ (← bench).lent

/-- The handler behind a name. -/
def findHandler (name : String) : Work (Option HandlerId) := do
  match ← find name with
  | some (_, .handler id) => return some id
  | _ => return none

/-- The first name, in the order of code points, that refers to a shared ring. -/
def nameOfRing (ring : RingId) : Work (Option String) := do
  let bench ← bench
  let refers (entry : String × Nat) : Bool :=
    match bench.things.get entry.2 with
    | .sharedRing id => id == ring
    | _ => false
  return (bench.names.filter refers).foldl
    (fun first entry =>
      match first with
      | none => some entry.1
      | some name => if entry.1 < name then some entry.1 else some name)
    none

end Work

end ByteFlow.Session
