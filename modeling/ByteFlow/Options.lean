/-
# Options of a pipe

The ceiling bounds the bytes that wait between transform and destination. The source of a pipe has
the capacity of its destination unless another one is given.
-/

import ByteFlow.Ring

namespace ByteFlow

/-- What can be chosen when a pipe is made. -/
structure PipeOptions where
  /-- How many transformed bytes may wait for the destination. -/
  ceiling : Nat
  /-- The capacity of the source, if it is not that of the destination. -/
  sourceCapacity : Option Nat
  sourceRegion : Region
deriving DecidableEq, Repr

namespace PipeOptions

/-- The ceiling where none is given. -/
def defaultCeiling : Nat := 1024 * 1024

/-- The usual options. -/
def standard : PipeOptions := ⟨defaultCeiling, none, .heap⟩

instance : Inhabited PipeOptions := ⟨standard⟩

/-- Checks that every size is in range, the ceiling first. -/
def validate (options : PipeOptions) : Except Error Unit :=
  if options.ceiling = 0 then
    .error
      (.other (.other "validate pipeline options") "intermediate ceiling must be non-zero" none)
  else if options.sourceCapacity = some 0 then
    .error (.other (.other "validate pipeline options") "source capacity must be non-zero" none)
  else .ok ()

end PipeOptions

end ByteFlow
