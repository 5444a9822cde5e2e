/-
# Copying

The transform that copies its input, in chunks of a bounded size. Single bytes are its units, so a
chunk is cut to whatever fits below the ceiling.
-/

import ByteFlow.Transform.Pieces

namespace ByteFlow

/-- Copies input in chunks of at most `chunkSize` bytes. -/
structure Identity where
  chunkSize : Nat
  chunkSize_pos : 0 < chunkSize

namespace Identity

/-- Copies each input into one chunk, as far as it fits. -/
def whole : Identity := ⟨unlimited, by decide⟩

/-- Copies in chunks of a given size. -/
def chunked (chunkSize : Nat) : Except Misuse Identity :=
  if h : 0 < chunkSize then .ok ⟨chunkSize, h⟩ else .error .zeroChunkSize

/-- One call of the transform. -/
def step (t : Identity) (input : Bytes) (o : Output) : Step × Output :=
  packPieces (fun o => min t.chunkSize o.headroom) Output.offer 0 input o

end Identity

end ByteFlow
