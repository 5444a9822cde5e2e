/-
# Sources over readers

A reader below a source can give bytes, fail, or report its end by giving none. The source turns
"try again" failures into reading nothing, remembers the end, and lets every other failure through.
A reader is its script: what it will do on its next calls.
-/

import ByteFlow.Journal

namespace ByteFlow

/-- Whether a failure of a non-blocking stream only means that it should be tried again. -/
def IoErrorKind.isTryAgain : IoErrorKind → Bool
  | .wouldBlock | .interrupted => true
  | _ => false

/-- What a reader does on a call. -/
inductive ReadItem where
  | fail (error : IoError)
  /-- Gives these bytes, over as many calls as it takes; none at all mean the end of the file. -/
  | data (bytes : Bytes)
deriving DecidableEq, Repr, Inhabited

/-- A reader, given by what it will do. Out of items it reports the end of the file. -/
structure Reader where
  /-- What the last item still has to give. -/
  unread : Bytes
  items : List ReadItem
deriving DecidableEq, Repr, Inhabited

/-- Asks a reader for bytes. -/
def Reader.read (r : Reader) (wanted : Nat) : Except IoError Bytes × Reader :=
  if r.unread.isEmpty then
    match r.items with
    | [] => (.ok [], r)
    | .fail error :: items => (.error error, { r with items })
    | .data bytes :: items => (.ok (bytes.take wanted), ⟨bytes.drop wanted, items⟩)
  else (.ok (r.unread.take wanted), { r with unread := r.unread.drop wanted })

/-- A source over a reader. -/
structure ReaderSource where
  /-- The reader, until the source is closed. -/
  reader : Option Reader
  /-- Whether the reader has reported its end. -/
  ended : Bool
deriving DecidableEq, Repr, Inhabited

/-- The result of a call on a stream, the stream afterwards and what there is to record, oldest
event first. -/
structure Called (σ α : Type) where
  result : Except Error α
  stream : σ
  events : List Event

namespace ReaderSource

def ofReader (reader : Reader) : ReaderSource := ⟨some reader, false⟩

/-- Reads from the reader, unless it has ended or nothing is wanted. -/
def read (s : ReaderSource) (wanted : Nat) : Called ReaderSource Bytes :=
  if s.ended || wanted == 0 then ⟨.ok [], s, []⟩
  else
    match s.reader with
    | none => ⟨.error (.closed .store), s, []⟩
    | some reader =>
      match reader.read wanted with
      | (.ok [], reader) =>
        ⟨.ok [], ⟨some reader, true⟩, [.readerCalled wanted (some 0), .logged .readerEnded]⟩
      | (.ok bytes, reader) =>
        ⟨.ok bytes, { s with reader := some reader },
          [.readerCalled wanted (some bytes.length)]⟩
      | (.error error, reader) =>
        ⟨if error.kind.isTryAgain then .ok []
          else .error ((Error.ofIo error).withOperation .store),
          { s with reader := some reader }, [.readerCalled wanted none]⟩

def isClosed (s : ReaderSource) : Bool := s.reader.isNone

/-- Closes the source by letting the reader go. -/
def close (s : ReaderSource) : ReaderSource := { s with reader := none }

end ReaderSource

/-- The sources that can be held as a value. -/
inductive Feed where
  /-- What is unread of a byte string. -/
  | slice (rest : Bytes)
  | reader (source : ReaderSource)
  /-- Nothing to read, and no end. -/
  | void
deriving DecidableEq, Repr, Inhabited

namespace Feed

/-- Reads at most `wanted` bytes. -/
def read (feed : Feed) (wanted : Nat) : Called Feed Bytes :=
  match feed with
  | .slice rest => ⟨.ok (rest.take wanted), .slice (rest.drop wanted), []⟩
  | .reader source =>
    let called := source.read wanted
    ⟨called.result, .reader called.stream, called.events⟩
  | .void => ⟨.ok [], .void, []⟩

/-- Whether the source has ended. -/
def isEnded : Feed → Bool
  | .slice rest => rest.isEmpty
  | .reader source => source.ended
  | .void => false

def isClosed : Feed → Bool
  | .reader source => source.isClosed
  | _ => false

/-- Closes the source. Only a source over a reader knows the difference. -/
def close : Feed → Feed
  | .reader source => .reader source.close
  | feed => feed

end Feed

end ByteFlow
