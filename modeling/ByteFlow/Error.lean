/-
# Errors

An error names the operation that failed, the kind of failure and, if there is one, its cause.
Causes are kept as data; the wording of every error is written by `Error.message` alone.

A `Misuse` is not an error of a stream but a broken promise of a caller: it stops the call that
made it, and is never turned into an `Error`.
-/

namespace ByteFlow

/-- The operation an error occurred in. -/
inductive Operation where
  | unknown
  | store
  | write
  | flush
  | close
  | defragment
  | transform
  | emit
  | switch
  | other (name : String)
deriving DecidableEq, Repr, Inhabited

/-- The operation as it is written in messages. -/
def Operation.text : Operation → String
  | .unknown => "unknown operation"
  | .store => "store into buffer"
  | .write => "write out of buffer"
  | .flush => "flush stream"
  | .close => "close stream"
  | .defragment => "defragment buffer"
  | .transform => "transform"
  | .emit => "emit transform output"
  | .switch => "switch buffer"
  | .other name => name

/-- What went wrong. -/
inductive ErrorKind where
  /-- A stream ended too early. -/
  | eos
  /-- A reader or writer failed. -/
  | io
  /-- The buffer was cleaned, or the stream closed. -/
  | closed
  /-- A unit of input can never be assembled. -/
  | underflow
  /-- The transform rejected its input. -/
  | transform
  /-- A chunk did not fit below the ceiling. -/
  | ceiling
  /-- The buffer cannot do this at all. -/
  | unsupported
  /-- A switch was refused. -/
  | rejected (reason : String)
  | other (message : String)
deriving DecidableEq, Repr, Inhabited

namespace ErrorKind

/-- The kind as it is written in messages. -/
def text : ErrorKind → String
  | .eos => "premature end-of-stream"
  | .io => "IO error"
  | .closed => "buffer or stream closed"
  | .underflow => "input underflow with no room left to assemble a unit"
  | .transform => "transform rejected its input"
  | .ceiling => "intermediate ceiling reached"
  | .unsupported => "operation not supported by this buffer"
  | .rejected reason => reason
  | .other message => message

/-- The bare name of the kind, without what it carries. -/
def name : ErrorKind → String
  | .eos => "Eos"
  | .io => "Io"
  | .closed => "Closed"
  | .underflow => "Underflow"
  | .transform => "Transform"
  | .ceiling => "Ceiling"
  | .unsupported => "Unsupported"
  | .rejected _ => "Rejected"
  | .other _ => "Other"

/-- A terminal error ends its stream: no later call can repair it. -/
def isTerminal : ErrorKind → Bool
  | .underflow | .transform => true
  | _ => false

end ErrorKind

/-- How a reader or writer below a stream can fail. -/
inductive IoErrorKind where
  | wouldBlock
  | interrupted
  | unexpectedEof
  | connectionReset
  | brokenPipe
  | timedOut
  | writeZero
  | invalidData
  | other
deriving DecidableEq, Repr, Inhabited

/-- The name of the failure. -/
def IoErrorKind.name : IoErrorKind → String
  | .wouldBlock => "WouldBlock"
  | .interrupted => "Interrupted"
  | .unexpectedEof => "UnexpectedEof"
  | .connectionReset => "ConnectionReset"
  | .brokenPipe => "BrokenPipe"
  | .timedOut => "TimedOut"
  | .writeZero => "WriteZero"
  | .invalidData => "InvalidData"
  | .other => "Other"

/-- A failure of a reader or writer, with its own words. -/
structure IoError where
  kind : IoErrorKind
  message : String
deriving DecidableEq, Repr, Inhabited

/-- What an error, or a failed transform step, goes back to. -/
inductive Cause where
  /-- Free text. -/
  | text (message : String)
  | io (error : IoError)
  /-- A frame header announces more than the decoder accepts. -/
  | frameTooLong (length max : Nat)
  /-- A line is longer than the decoder accepts. -/
  | lineTooLong (max : Nat)
  | invalidBase64
  /-- A transform claims to have used more than it was given. -/
  | overconsumed (consumed available : Nat)
  /-- An error without a cause of its own. -/
  | error (operation : Operation) (kind : ErrorKind)
  /-- An error that was itself caused. -/
  | errorBy (operation : Operation) (kind : ErrorKind) (cause : Cause)
deriving DecidableEq, Repr, Inhabited

/-- An error of a buffer, a stream or a pipe. -/
structure Error where
  operation : Operation
  kind : ErrorKind
  cause : Option Cause
deriving DecidableEq, Repr, Inhabited

/-- The words for an error whose cause, if any, is already in words. -/
def failureText (operation : Operation) (kind : ErrorKind) : Option String → String
  | none => operation.text ++ " failed; " ++ kind.text
  | some cause => operation.text ++ " failed; " ++ kind.text ++ " (" ++ cause ++ ")"

/-- The words for a cause. -/
def Cause.message : Cause → String
  | .text message => message
  | .io failure => failure.message
  | .frameTooLong length max =>
    "frame of " ++ toString length ++ " bytes exceeds the maximum of " ++ toString max ++ " bytes"
  | .lineTooLong max => "line exceeds the maximum of " ++ toString max ++ " bytes"
  | .invalidBase64 => "invalid base64"
  | .overconsumed consumed available =>
    "transform consumed " ++ toString consumed ++ " bytes of " ++ toString available
  | .error operation kind => failureText operation kind none
  | .errorBy operation kind cause => failureText operation kind (some cause.message)

namespace Error

/-- The words for an error: the operation, the kind and, in brackets, the cause. -/
def message (e : Error) : String :=
  failureText e.operation e.kind (e.cause.map Cause.message)

/-- The error as the cause of another. -/
def toCause (e : Error) : Cause :=
  match e.cause with
  | none => .error e.operation e.kind
  | some cause => .errorBy e.operation e.kind cause

/-- The failed reader or writer behind an error, if its cause is one. -/
def ioCause (e : Error) : Option IoError :=
  match e.cause with
  | some (.io error) => some error
  | _ => none

def other (operation : Operation) (message : String) (cause : Option Cause) : Error :=
  ⟨operation, .other message, cause⟩

/-- The stream ended too early. -/
def eos (operation : Operation) : Error := ⟨operation, .eos, none⟩

def io (operation : Operation) (error : IoError) : Error := ⟨operation, .io, some (.io error)⟩

def closed (operation : Operation) : Error := ⟨operation, .closed, none⟩

def unsupported (operation : Operation) : Error := ⟨operation, .unsupported, none⟩

/-- A unit of input has no room left to be assembled in. -/
def underflow : Error := ⟨.transform, .underflow, none⟩

/-- The transform could not accept its input. -/
def transform (cause : Option Cause) : Error := ⟨.transform, .transform, cause⟩

/-- A chunk was refused because it would pass the ceiling. -/
def ceiling : Error := ⟨.emit, .ceiling, none⟩

/-- A switch was refused. -/
def rejected (reason : String) : Error := ⟨.switch, .rejected reason, none⟩

def withOperation (e : Error) (operation : Operation) : Error := { e with operation }

def withKind (e : Error) (kind : ErrorKind) : Error := { e with kind }

/-- A failed reader or writer as an error: an unexpected end of file is a premature end of the
stream, and everything else keeps the failure as its cause. -/
def ofIo (error : IoError) : Error :=
  if error.kind = .unexpectedEof then .eos .unknown else .io .unknown error

/-- A bare message as an error. -/
def ofText (message : String) : Error := .other .unknown message none

end Error

/-- A promise that a caller has broken. -/
inductive Misuse where
  /-- More bytes were to be dropped than there are. -/
  | overdrawn (count used : Nat)
  | zeroChunkSize
  | zeroLineInput
  | badFrameLimit
  /-- More bytes were asked for at once than can lie next to one another. -/
  | unaddressable
  /-- A transform gave up in its own words. -/
  | raised (message : String)
deriving DecidableEq, Repr, Inhabited

/-- The words for a broken promise. -/
def Misuse.message : Misuse → String
  | .overdrawn count used =>
    "cannot consume " ++ toString count ++ " of " ++ toString used ++ " bytes"
  | .zeroChunkSize => "chunk size must be non-zero"
  | .zeroLineInput => "line input length must be non-zero"
  | .badFrameLimit => "invalid maximum frame length"
  | .unaddressable => "capacity overflow"
  | .raised message => message

end ByteFlow
