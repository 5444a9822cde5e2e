/-
# Packing piece by piece

A transform whose input may be cut anywhere takes pieces from the front of it, each as long as its
output has room for, until nothing is left or there is no room.
-/

import ByteFlow.Transform

namespace ByteFlow

/-- Packs what is left of the input, of which `consumed` bytes were packed before: pieces as long as
`room` allows go to the output by `put`, whose first error ends the call. -/
def packPieces (room : Output → Nat) (put : Output → Bytes → Output × Except Error Unit)
    (consumed : Nat) (rest : Bytes) (o : Output) : Step × Output :=
  let piece := rest.take (room o)
  if _h : piece = [] then (.done consumed, o)
  else
    match put o piece with
    | (o, .error e) => (.errored e.toCause, o)
    | (o, .ok ()) =>
      packPieces room put (consumed + piece.length) (rest.drop piece.length) o
termination_by rest.length
decreasing_by
  have : 0 < piece.length := List.length_pos_iff.2 _h
  have : piece.length ≤ rest.length := List.length_take_le' _ _
  change (rest.drop piece.length).length < rest.length
  rw [List.length_drop]
  omega

end ByteFlow
