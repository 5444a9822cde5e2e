/-
# Sinks over writers

A writer below a sink can take a first part of what it is offered, or fail. The sink turns "try
again" failures into taking nothing, and lets every other failure through. A writer is its script:
what it will do on its next calls.
-/

import ByteFlow.Block
import ByteFlow.Stream.Reader

namespace ByteFlow

/-- What a writer does when it is offered bytes. -/
inductive WriteItem where
  | fail (error : IoError)
  /-- Takes at most so many bytes. -/
  | accept (count : Nat)
deriving DecidableEq, Repr, Inhabited

/-- A writer, given by what it will do. Out of items it takes everything, and flushes well. -/
structure Writer where
  /-- All bytes taken so far. -/
  accepted : Block
  items : List WriteItem
  /-- What the next flushes do: fail, or go well. -/
  flushes : List (Option IoError)
deriving DecidableEq, Repr, Inhabited

namespace Writer

/-- Offers bytes to a writer, and says how many it took. -/
def write (w : Writer) (offered : Bytes) : Except IoError Nat × Writer :=
  match w.items with
  | [] => (.ok offered.length, { w with accepted := w.accepted.append offered })
  | .fail error :: items => (.error error, { w with items })
  | .accept count :: items =>
    let taken := offered.take count
    (.ok taken.length, { w with accepted := w.accepted.append taken, items })

/-- Flushes a writer. -/
def flush (w : Writer) : Except IoError Unit × Writer :=
  match w.flushes with
  | [] => (.ok (), w)
  | none :: flushes => (.ok (), { w with flushes })
  | some error :: flushes => (.error error, { w with flushes })

end Writer

/-- A sink over a writer. -/
structure WriterSink where
  /-- The writer, until the sink is closed. -/
  writer : Option Writer
deriving DecidableEq, Repr, Inhabited

namespace WriterSink

def ofWriter (writer : Writer) : WriterSink := ⟨some writer⟩

/-- Offers bytes to the writer. -/
def write (s : WriterSink) (offered : Bytes) : Called WriterSink Nat :=
  match s.writer with
  | none => ⟨.error (.closed .write), s, []⟩
  | some writer =>
    match writer.write offered with
    | (.ok count, writer) =>
      ⟨.ok count, ⟨some writer⟩, [.writerCalled offered.length (some count)]⟩
    | (.error error, writer) =>
      ⟨if error.kind.isTryAgain then .ok 0 else .error ((Error.ofIo error).withOperation .write),
        ⟨some writer⟩, [.writerCalled offered.length none]⟩

/-- Flushes the writer. A writer that would block has not failed. -/
def flush (s : WriterSink) : Called WriterSink Unit :=
  match s.writer with
  | none => ⟨.error (.closed .flush), s, []⟩
  | some writer =>
    match writer.flush with
    | (.ok (), writer) => ⟨.ok (), ⟨some writer⟩, [.writerFlushed]⟩
    | (.error error, writer) =>
      ⟨if error.kind = .wouldBlock then .ok ()
        else .error ((Error.ofIo error).withOperation .flush),
        ⟨some writer⟩, [.writerFlushed]⟩

def isClosed (s : WriterSink) : Bool := s.writer.isNone

/-- Flushes the writer and lets it go, however the flush ends. A closed sink stays closed. -/
def close (s : WriterSink) : Called WriterSink Unit :=
  match s.writer with
  | none => ⟨.ok (), s, []⟩
  | some writer =>
    match writer.flush with
    | (.ok (), _) => ⟨.ok (), ⟨none⟩, [.writerFlushed]⟩
    | (.error error, _) =>
      ⟨.error ((Error.ofIo error).withOperation .close), ⟨none⟩, [.writerFlushed]⟩

end WriterSink

/-- The sinks that can be held as a value. -/
inductive Outlet where
  /-- Keeps every byte behind what it holds already. -/
  | bytes (content : Block)
  | writer (sink : WriterSink)
  /-- Takes every byte and keeps none. -/
  | void
deriving DecidableEq, Repr, Inhabited

namespace Outlet

/-- Offers bytes to the sink. -/
def write (outlet : Outlet) (offered : Bytes) : Called Outlet Nat :=
  match outlet with
  | .bytes content => ⟨.ok offered.length, .bytes (content.append offered), []⟩
  | .writer sink =>
    let called := sink.write offered
    ⟨called.result, .writer called.stream, called.events⟩
  | .void => ⟨.ok offered.length, .void, []⟩

/-- Flushes the sink. -/
def flush (outlet : Outlet) : Called Outlet Unit :=
  match outlet with
  | .writer sink =>
    let called := sink.flush
    ⟨called.result, .writer called.stream, called.events⟩
  | outlet => ⟨.ok (), outlet, []⟩

/-- Closes the sink. Only a sink over a writer knows the difference. -/
def close (outlet : Outlet) : Called Outlet Unit :=
  match outlet with
  | .writer sink =>
    let called := sink.close
    ⟨called.result, .writer called.stream, called.events⟩
  | outlet => ⟨.ok (), outlet, []⟩

def isClosed : Outlet → Bool
  | .writer sink => sink.isClosed
  | _ => false

/-- All bytes that the sink has taken and can still show. -/
def accepted : Outlet → Block
  | .bytes content => content
  | .writer ⟨some target⟩ => target.accepted
  | .writer ⟨none⟩ => .empty
  | .void => .empty

end Outlet

end ByteFlow
