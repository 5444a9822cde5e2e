/-
# The journal

Everything that can be watched from outside is written down in one timeline: edges and who was
told of them, bytes that come in and go out, calls of transforms, readers and writers, calls made
from inside an edge, and log records. A journal is a list with the newest event first.
-/

import ByteFlow.Answer
import ByteFlow.Block

namespace ByteFlow

/-- Rings, pipes and handlers are known by number. -/
abbrev RingId := Nat

@[inherit_doc RingId]
abbrev PipeId := Nat

@[inherit_doc RingId]
abbrev HandlerId := Nat

/-- A transition that owners are told of. -/
inductive Edge where
  /-- A buffer went from empty to holding bytes. -/
  | readable
  /-- A buffer went from full to having room. -/
  | writable
  /-- A stream ended with a terminal error. -/
  | error (error : Error)
deriving DecidableEq, Repr, Inhabited

/-- What an edge comes from. -/
inductive Emitter where
  | ring (id : RingId)
  | pipe (id : PipeId)
  /-- A set of handlers that its owner tells. -/
  | members
deriving DecidableEq, Repr, Inhabited

/-- The direction a pipe transforms in. -/
inductive Direction where
  /-- From the wire format to plain bytes. -/
  | unwrap
  /-- From plain bytes to the wire format. -/
  | wrap
deriving DecidableEq, Repr, Inhabited

/-- The direction as it is written in reports. -/
def Direction.text : Direction → String
  | .unwrap => "unwrap"
  | .wrap => "wrap"

/-- How much a log record matters; later constructors matter more. -/
inductive LogLevel where
  | trace
  | debug
  | info
  | warn
  | error
deriving DecidableEq, Repr, Inhabited

namespace LogLevel

/-- The level as it is written in reports. -/
def text : LogLevel → String
  | .trace => "trace"
  | .debug => "debug"
  | .info => "info"
  | .warn => "warn"
  | .error => "error"

/-- The place of a level in the order of weight. -/
def weight : LogLevel → Nat
  | .trace => 0
  | .debug => 1
  | .info => 2
  | .warn => 3
  | .error => 4

end LogLevel

/-- The value of one field of a log record. -/
inductive LogValue where
  | number (value : Nat)
  | text (value : String)
deriving DecidableEq, Repr, Inhabited

/-- What is written to the log. -/
inductive LogRecord where
  | ringDefragmented (head used : Nat)
  | scratchGrown (before after : Nat)
  | readerEnded
  | pipeCreated (direction : Direction) (sourceCapacity destinationCapacity ceiling : Nat)
  | runInProgress (direction : Direction)
  | cleanedWhileDraining (direction : Direction)
  | drained (direction : Direction) (count : Nat)
  | transformed (direction : Direction) (consumed emitted : Nat)
  | sourceDefragmented (direction : Direction) (used : Nat)
  | sourceEnded (direction : Direction)
  | switched (direction : Direction) (capacity queued : Nat)
  | pipeCleaned (direction : Direction)
  | runAborted (direction : Direction) (error : Error)
  | streamFailed (direction : Direction) (error : Error)
deriving DecidableEq, Repr, Inhabited

namespace LogRecord

/-- The weight of a record. -/
def level : LogRecord → LogLevel
  | .pipeCreated .. | .sourceDefragmented .. | .sourceEnded .. | .switched .. => .debug
  | .runAborted .. => .error
  | .streamFailed .. => .warn
  | _ => .trace

/-- The words of a record. -/
def message : LogRecord → String
  | .ringDefragmented .. => "defragmenting ring"
  | .scratchGrown .. => "growing scratch buffer"
  | .readerEnded => "reader reached end-of-stream"
  | .pipeCreated .. => "created pipeline"
  | .runInProgress .. => "run already in progress"
  | .cleanedWhileDraining .. => "pipeline cleaned while draining"
  | .drained .. => "drained into destination"
  | .transformed .. => "transformed"
  | .sourceDefragmented .. => "defragmenting wrapped source"
  | .sourceEnded .. => "source reached end-of-stream"
  | .switched .. => "switched destination buffer"
  | .pipeCleaned .. => "cleaned pipeline"
  | .runAborted .. => "should not happen; run aborted"
  | .streamFailed .. => "stream failed"

/-- The named values of a record. -/
def fields : LogRecord → List (String × LogValue)
  | .ringDefragmented head used => [("head", .number head), ("len", .number used)]
  | .scratchGrown before after => [("from", .number before), ("to", .number after)]
  | .readerEnded => []
  | .pipeCreated direction sourceCapacity destinationCapacity ceiling =>
    [("direction", .text direction.text), ("source_capacity", .number sourceCapacity),
      ("destination_capacity", .number destinationCapacity), ("ceiling", .number ceiling)]
  | .runInProgress direction | .cleanedWhileDraining direction | .sourceEnded direction
  | .pipeCleaned direction => [("direction", .text direction.text)]
  | .drained direction count => [("direction", .text direction.text), ("count", .number count)]
  | .transformed direction consumed emitted =>
    [("direction", .text direction.text), ("consumed", .number consumed),
      ("emitted", .number emitted)]
  | .sourceDefragmented direction used =>
    [("direction", .text direction.text), ("used", .number used)]
  | .switched direction capacity queued =>
    [("direction", .text direction.text), ("capacity", .number capacity),
      ("queued", .number queued)]
  | .runAborted direction error | .streamFailed direction error =>
    [("direction", .text direction.text), ("error", .text error.message)]

end LogRecord

/-- One entry of the journal. -/
inductive Event where
  | logged (record : LogRecord)
  /-- An edge fired; those who are told of it follow. -/
  | fired (emitter : Emitter) (edge : Edge)
  /-- A handler was told of an edge. -/
  | notified (emitter : Emitter) (handler : HandlerId) (edge : Edge)
  /-- A run of a pipe began. -/
  | started (pipe : PipeId)
  /-- A run of a pipe ended. It had made room or not, and the pipe had these handlers. -/
  | ended (pipe : PipeId) (freed : Bool) (handlers : List HandlerId)
  /-- A pipe was made into a ring, which held so many bytes. -/
  | opened (pipe : PipeId) (destination : RingId) (held : Nat)
  /-- Another ring took the place of the destination of a pipe, and held so many bytes. -/
  | redirected (pipe : PipeId) (destination : RingId) (held : Nat)
  /-- Bytes came into the source of a pipe. -/
  | received (pipe : PipeId) (bytes : Bytes)
  /-- Bytes went from a ring into a sink. -/
  | delivered (ring : RingId) (bytes : Bytes)
  /-- A transform was called with `input` and pushed `chunks`; the room below the ceiling was
  `headroom` before and `left` afterwards. -/
  | transformed (pipe : PipeId) (input : Block) (headroom : Nat) (step : Step)
      (chunks : List Bytes) (left : Nat)
  /-- A transform was called likewise, and was stopped by a promise that it broke. -/
  | stopped (pipe : PipeId) (input : Block) (headroom : Nat) (chunks : List Bytes)
  /-- A transform reports on what it does to its output. -/
  | output (action : String) (answer : Answer)
  /-- A reader was asked for `wanted` bytes and gave `got`, or failed. -/
  | readerCalled (wanted : Nat) (got : Option Nat)
  /-- A writer was offered so many bytes and took some, or failed. -/
  | writerCalled (offered : Nat) (took : Option Nat)
  /-- A writer was about to be flushed. -/
  | writerFlushed
  /-- A handler finished a call of its own. -/
  | acted (handler : HandlerId) (action : String) (answer : Answer)
deriving Inhabited

end ByteFlow
