/-
# Moving bytes between rings and streams

Storing reads once per free span and stops at the first span that the source does not fill.
Writing offers each span of content once and stops at the first offer that the sink does not take
whole. An error stops a transfer too, but what was moved before it stays moved; both results say
which bytes those were.
-/

import ByteFlow.Ring
import ByteFlow.Stream

namespace ByteFlow

/-- What a transfer from a source into a ring has done. -/
structure Intake where
  /-- The ring afterwards. -/
  ring : Ring
  /-- The bytes that were stored, also those before an error. -/
  moved : Bytes
  result : Except Error Stored

/-- What a transfer from a ring into a sink has done. -/
structure Outflow where
  /-- The ring afterwards. -/
  ring : Ring
  /-- The bytes that the sink took, also those before an error. -/
  moved : Bytes
  result : Except Error Nat

namespace Ring

variable {m : Type → Type} [Monad m]

/-- Reads into free spans of the given lengths. -/
def readSpans (source : Source m) : List Nat → Ring → m (Ring × Bytes × Option Error)
  | [], r => pure (r, [], none)
  | wanted :: lengths, r => do
    match ← source.read wanted with
    | .error e => pure (r, [], some e)
    | .ok data =>
      let data := data.take wanted
      let r := r.fill data
      if data.length < wanted then pure (r, data, none)
      else
        let (r, more, failure) ← readSpans source lengths r
        pure (r, data ++ more, failure)

/-- Stores as many bytes from a source as fit. The end of the source is reported only by a call
that has stored nothing, and a full ring does not read at all. -/
def storeFrom (r : Ring) (source : Source m) : m Intake :=
  if r.cleaned then pure ⟨r, [], .error (.closed .store)⟩
  else if r.isFull then pure ⟨r, [], .ok (.bytes 0)⟩
  else do
    let (r, moved, failure) ← readSpans source r.freeSpans r
    match failure with
    | some e => pure ⟨r, moved, .error e⟩
    | none =>
      if moved.isEmpty then
        if ← source.isEnded then pure ⟨r, moved, .ok .eos⟩
        else pure ⟨r, moved, .ok (.bytes 0)⟩
      else pure ⟨r, moved, .ok (.bytes moved.length)⟩

/-- Offers spans of content, given by first cell and length, at most `max` bytes in all. -/
def writeSpans (sink : Sink m) :
    List (Nat × Nat) → Nat → Ring → m (Ring × Bytes × Option Error)
  | [], _, r => pure (r, [], none)
  | (start, count) :: rest, max, r =>
    let offer := (r.cells.slice start (min count max)).toList
    if offer.isEmpty then pure (r, [], none)
    else do
      match ← sink.write offer with
      | .error e => pure (r, [], some e)
      | .ok count =>
        let taken := offer.take count
        let r := r.discard taken.length
        if taken.length < offer.length then pure (r, taken, none)
        else
          let (r, more, failure) ← writeSpans sink rest (max - taken.length) r
          pure (r, taken ++ more, failure)

/-- Writes at most `max` bytes of content into a sink. -/
def writeTo (r : Ring) (sink : Sink m) (max : Nat) : m Outflow :=
  if r.cleaned then pure ⟨r, [], .error (.closed .write)⟩
  else do
    let (r, moved, failure) ← writeSpans sink r.usedSpans max r
    match failure with
    | some e => pure ⟨r, moved, .error e⟩
    | none => pure ⟨r, moved, .ok moved.length⟩

end Ring

end ByteFlow
