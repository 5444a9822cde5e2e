/-
# Commands

A session works on things that have names. A command makes a thing, lets one go, or asks one to do
something; the same request may mean different things to things of different types, and nothing to
some. Handlers hold commands of their own, which they run when they are told of an edge.
-/

import ByteFlow.Session.Stage
import ByteFlow.Stream.Writer
import ByteFlow.World

namespace ByteFlow.Session

/-- A segment for a queue: new bytes, or a ring that moves into the queue. -/
inductive Segment where
  | data (bytes : Bytes)
  | ring (name : String)
deriving Inhabited

/-- What a thing is asked to do. Other things are named where a request needs them. -/
inductive Request where
  | storeFrom (source : String)
  | storeSlice (data : Bytes)
  | store (data : Bytes)
  | writeTo (sink : String) (max : Nat)
  | consume (count : Nat)
  | clear
  | clean
  | defragment
  | describe
  | addHandler (handler : String)
  | removeHandler (handler : String)
  | same (other : String)
  | write (data : Bytes)
  | flush
  | close
  | isClosed
  | pushBack (segment : Segment)
  | pushFront (segment : Segment)
  | popFront (name : String)
  | add (handler : String)
  | remove (handler : String)
  | tellReadable
  | tellWritable
  | tellError (error : Error)
  | read (wanted : Nat)
  | isEos
  | refill (sink : String)
  | intoInner
  | accepted
  | run
  | switch (ring : String)
  | isOperating
  | info
deriving Inhabited

/-- The name of a request in reports. -/
def Request.label : Request → String
  | .storeFrom _ => "store_from"
  | .storeSlice _ => "store_slice"
  | .store _ => "store"
  | .writeTo .. => "write_to"
  | .consume _ => "consume"
  | .clear => "clear"
  | .clean => "clean"
  | .defragment => "defragment"
  | .describe => "debug"
  | .addHandler _ => "add_handler"
  | .removeHandler _ => "remove_handler"
  | .same _ => "same"
  | .write _ => "write"
  | .flush => "flush"
  | .close => "close"
  | .isClosed => "is_closed"
  | .pushBack _ => "push_back"
  | .pushFront _ => "push_front"
  | .popFront _ => "pop_front"
  | .add _ => "add"
  | .remove _ => "remove"
  | .tellReadable => "readable"
  | .tellWritable => "writable"
  | .tellError _ => "error"
  | .read _ => "read"
  | .isEos => "is_eos"
  | .refill _ => "refill"
  | .intoInner => "into_inner"
  | .accepted => "accepted"
  | .run => "run"
  | .switch _ => "switch"
  | .isOperating => "is_operating"
  | .info => "info"

/-- What a ring is made from. -/
inductive RingPlan where
  | empty (capacity : Nat) (region : Region)
  /-- A full ring around a chunk. -/
  | wrap (chunk : Bytes)
deriving Inhabited

/-- Makes the ring. -/
def RingPlan.make : RingPlan → Except Misuse Ring
  | .empty capacity region => Ring.create capacity region
  | .wrap chunk => .ok (.wrap chunk)

mutual

/-- One step of a session. -/
inductive Command where
  /-- Makes a thing; a thing that had the name before is let go. -/
  | create (name : String) (blueprint : Blueprint)
  /-- Lets a thing go. -/
  | drop (name : String)
  | ask (name : String) (request : Request)

/-- What a thing is made from. -/
inductive Blueprint where
  | byteRing (plan : RingPlan)
  /-- A ring that can only be stored into, written out of and emptied. -/
  | basicRing (plan : RingPlan)
  | sharedRing (plan : RingPlan)
  | queue
  | handlers
  /-- A handler runs commands on an edge that it has a list for, at most `runs` times. One that
  does not see errors is not told of them. -/
  | handler (seesErrors : Bool) (readable writable error : Option (List Command))
      (runs : Option Nat)
  | source (feed : Feed)
  | sink (outlet : Outlet)
  | pipe (destination : String) (recipe : Recipe) (direction : Direction) (options : PipeOptions)

end

instance : Inhabited Command := ⟨.drop ""⟩

/-- The name of a command in reports. -/
def Command.label : Command → String
  | .create .. => "new"
  | .drop _ => "drop"
  | .ask _ request => request.label

end ByteFlow.Session
