/-
# Transforms

A transform turns bytes of one format into bytes of another, unit by unit. It is given the readable
bytes of its source and an output; it uses only complete units and leaves a unit that is incomplete,
or that does not fit its output, for a later call.
-/

import ByteFlow.Output

namespace ByteFlow

/-- The outcome of one call of a transform. -/
structure Transformed (τ : Type) where
  /-- The transform as the next call finds it. -/
  next : τ
  /-- The output, with all that was pushed, also by a call that failed or was stopped. -/
  output : Output
  result : Except Misuse Step

/-- Types whose values are transforms. -/
class Transform (τ : Type) where
  /-- Calls the transform on the readable bytes of its source. -/
  call : τ → Bytes → Output → Transformed τ

end ByteFlow
