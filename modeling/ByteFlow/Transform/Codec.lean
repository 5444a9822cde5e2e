/-
# The transforms that come with the library

Each of them is a function of its parameters, its input and its output: a call leaves nothing behind
in the transform itself. `Codec` is the choice of one of them.
-/

import ByteFlow.Transform.Base64Lines
import ByteFlow.Transform.Frames
import ByteFlow.Transform.Identity

namespace ByteFlow

/-- The outcome of a transform that keeps nothing and breaks no promise. -/
def Transformed.ofStep {τ : Type} (t : τ) (outcome : Step × Output) : Transformed τ :=
  ⟨t, outcome.2, .ok outcome.1⟩

instance : Transform Identity := ⟨fun t input o => .ofStep t (t.step input o)⟩

instance : Transform FrameDecoder := ⟨fun t input o => .ofStep t (t.step input o)⟩

instance : Transform FrameEncoder := ⟨fun t input o => .ofStep t (t.step input o)⟩

instance : Transform LineDecoder := ⟨fun t input o => .ofStep t (t.step input o)⟩

instance : Transform LineEncoder := ⟨fun t input o => .ofStep t (t.step input o)⟩

instance : Inhabited Identity := ⟨.whole⟩

instance : Inhabited FrameDecoder := ⟨.standard⟩

instance : Inhabited FrameEncoder := ⟨.standard⟩

instance : Inhabited LineDecoder := ⟨.standard⟩

instance : Inhabited LineEncoder := ⟨.standard⟩

/-- One of the transforms of the library. -/
inductive Codec where
  | identity (t : Identity)
  | frameDecoder (t : FrameDecoder)
  | frameEncoder (t : FrameEncoder)
  | lineDecoder (t : LineDecoder)
  | lineEncoder (t : LineEncoder)
deriving Inhabited

/-- One call of the chosen transform. -/
def Codec.step (t : Codec) (input : Bytes) (o : Output) : Step × Output :=
  match t with
  | .identity t => t.step input o
  | .frameDecoder t => t.step input o
  | .frameEncoder t => t.step input o
  | .lineDecoder t => t.step input o
  | .lineEncoder t => t.step input o

instance : Transform Codec := ⟨fun t input o => .ofStep t (t.step input o)⟩

end ByteFlow
