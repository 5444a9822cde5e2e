/-
# Steps and answers

A step is the outcome of one call of a transform. An answer is what a call on any object gives
back, in one type, so that calls made from inside an edge can be put on record.
-/

import ByteFlow.Bytes
import ByteFlow.Error
import ByteFlow.Stream

namespace ByteFlow

/-- The outcome of one call of a transform. -/
inductive Step where
  /-- All complete units that fit were transformed. -/
  | done (consumed : Nat)
  /-- The input ends with an incomplete unit, which begins after `consumed` bytes. -/
  | underflow (consumed : Nat)
  /-- The input is malformed, and the stream cannot go on. -/
  | errored (cause : Cause)
deriving DecidableEq, Repr, Inhabited

namespace Step

/-- The number of input bytes used; none if the step failed. -/
def consumed : Step → Nat
  | .done consumed | .underflow consumed => consumed
  | .errored _ => 0

/-- Whether the input ends with an incomplete unit. -/
def isUnderflow : Step → Bool
  | .underflow _ => true
  | _ => false

end Step

/-- What a call gives back. -/
inductive Answer where
  | ok
  /-- The call names something that is not there, is of another type or is in use. -/
  | missing
  | failed (error : Error)
  /-- The call was stopped by a broken promise, and the bytes that its sink kept until then, if it
  has one that keeps them. -/
  | stopped (misuse : Misuse) (out : Option Bytes)
  /-- The call took more passes than it was granted. -/
  | exhausted
  | nothing
  | flag (value : Bool)
  | number (value : Nat)
  | text (value : String)
  | bytes (value : Bytes)
  | stored (value : Stored)
  /-- So many bytes of a byte string were stored. -/
  | accepted (count : Nat)
  /-- The result of writing out, and the bytes that the sink kept, if it is one that keeps them. -/
  | written (result : Except Error Nat) (out : Option Bytes)
  /-- So many bytes were read; the destination holds them and zeros behind them. -/
  | read (count : Nat) (destination : Bytes)
  | step (value : Step)
  /-- So many bytes of a source are unread. -/
  | left (count : Nat)
  /-- What an opened reader had left. -/
  | reader (unread : Bytes) (items : Nat)
  /-- What an opened writer had taken. -/
  | writer (accepted : Bytes)
  /-- The name of the ring that a switch replaced. -/
  | previous (name : Option String)
  /-- The fixed properties of a pipe. -/
  | info (direction : String) (capacity ceiling : Nat) (sourceCapacity : Option Nat)
      (sourceRegion : String)
deriving Inhabited

namespace Answer

/-- The answer to a call that has no result of its own. -/
def ofUnit : Except Error Unit → Answer
  | .ok () => .ok
  | .error e => .failed e

/-- The answer to storing from a source. -/
def ofStored : Except Error Stored → Answer
  | .ok value => .stored value
  | .error e => .failed e

/-- The answer to calling a transform. -/
def ofStep : Except Misuse Step → Answer
  | .ok value => .step value
  | .error misuse => .stopped misuse none

end Answer

end ByteFlow
