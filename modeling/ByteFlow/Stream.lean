/-
# Sources and sinks

A source is read from and a sink is written to, never waiting. Both are given by what they do
inside some monad `m`, so that a list of bytes, a scripted reader and a ring that tells its
observers are used through one interface.
-/

import ByteFlow.Bytes
import ByteFlow.Error

namespace ByteFlow

/-- A stream that bytes are read from. -/
structure Source (m : Type → Type) where
  /-- Reads at most as many bytes as it is asked for; nothing if none are ready yet. -/
  read : Nat → m (Except Error Bytes)
  /-- Whether the stream has ended and will never give another byte. -/
  isEnded : m Bool

/-- A stream that bytes are written to. -/
structure Sink (m : Type → Type) where
  /-- Takes a first part of what it is offered, and says how many bytes it took. -/
  write : Bytes → m (Except Error Nat)

/-- What became of storing from a source. -/
inductive Stored where
  /-- So many bytes were stored, perhaps none. -/
  | bytes (count : Nat)
  /-- The source had ended before any byte was read. -/
  | eos
deriving DecidableEq, Repr, Inhabited

namespace Stored

/-- The number of bytes stored. -/
def count : Stored → Nat
  | .bytes count => count
  | .eos => 0

/-- Whether the source had ended. -/
def isEos : Stored → Bool
  | .bytes _ => false
  | .eos => true

end Stored

namespace Source

/-- The source that reads from a byte string held as state. -/
def ofBytes : Source (StateM Bytes) where
  read wanted := do
    let rest ← get
    set (rest.drop wanted)
    return .ok (rest.take wanted)
  isEnded := do return (← get).isEmpty

/-- The source that never has anything to read and never ends. -/
def void {m : Type → Type} [Monad m] : Source m where
  read _ := pure (.ok [])
  isEnded := pure false

end Source

namespace Sink

/-- The sink that appends to a byte string held as state. -/
def toBytes : Sink (StateM Bytes) where
  write offered := do
    modify (· ++ offered)
    return .ok offered.length

/-- The sink that takes everything and keeps nothing. -/
def void {m : Type → Type} [Monad m] : Sink m where
  write offered := pure (.ok offered.length)

end Sink

end ByteFlow
