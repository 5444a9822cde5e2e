/-
# Framing and unframing

The decoder unpacks length-prefixed frames into chunks, one per payload. The encoder packs its
input into frames; payloads may be cut anywhere, so a frame is cut to whatever fits below the
ceiling, and only a ceiling too low for a payload of one byte is passed.
-/

import ByteFlow.Frame
import ByteFlow.Transform.Pieces

namespace ByteFlow

/-- Unpacks frames whose payloads have at most `maxFrame` bytes. -/
structure FrameDecoder where
  maxFrame : Nat
deriving DecidableEq, Repr

/-- Packs input into frames whose payloads have at most `maxFrame` bytes. -/
structure FrameEncoder where
  maxFrame : Nat
  maxFrame_pos : 0 < maxFrame
  /-- Every payload's length has a header. -/
  maxFrame_lt : maxFrame < Frame.lengthLimit

/-- The payload limit where none is given. -/
def Frame.defaultMax : Nat := 64 * 1024

namespace FrameDecoder

/-- The decoder with the usual limit. -/
def standard : FrameDecoder := ⟨Frame.defaultMax⟩

/-- Unpacks what is left of the input, of which `consumed` bytes were used before. -/
def unpack (t : FrameDecoder) (consumed : Nat) (rest : Bytes) (o : Output) : Step × Output :=
  match _h : Frame.front t.maxFrame rest with
  | .none => (.done consumed, o)
  | .incomplete => (.underflow consumed, o)
  | .tooLong length => (.errored (.frameTooLong length t.maxFrame), o)
  | .whole payload next =>
    if o.fits payload.length then
      match o.push payload with
      | .error e => (.errored e.toCause, o)
      | .ok o => t.unpack (consumed + (Frame.headerLength + payload.length)) next o
    else (.done consumed, o)
termination_by rest.length
decreasing_by exact Frame.length_rest_lt_of_front _h

/-- One call of the transform. -/
def step (t : FrameDecoder) (input : Bytes) (o : Output) : Step × Output := t.unpack 0 input o

end FrameDecoder

namespace FrameEncoder

/-- The encoder with the usual limit. -/
def standard : FrameEncoder := ⟨Frame.defaultMax, by decide, by decide⟩

/-- The encoder with a given limit. -/
def new (maxFrame : Nat) : Except Misuse FrameEncoder :=
  if h : 0 < maxFrame ∧ maxFrame < Frame.lengthLimit then .ok ⟨maxFrame, h.1, h.2⟩
  else .error .badFrameLimit

/-- How long a payload may be for its frame to be accepted. -/
def room (o : Output) : Nat :=
  if o.headroom - Frame.headerLength = 0 then
    if o.fits (Frame.headerLength + 1) then 1 else 0
  else o.headroom - Frame.headerLength

/-- Pushes a payload as a frame, which is put together in the scratch buffer. -/
def put (o : Output) (payload : Bytes) : Output × Except Error Unit :=
  let frame := Frame.encode payload
  ((o.reserve frame.length).overwrite frame).pushScratch frame.length

/-- One call of the transform. -/
def step (t : FrameEncoder) (input : Bytes) (o : Output) : Step × Output :=
  packPieces (fun o => min t.maxFrame (room o)) put 0 input o

end FrameEncoder

end ByteFlow
