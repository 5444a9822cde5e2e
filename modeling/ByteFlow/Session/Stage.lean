/-
# Transforms by recipe

A session makes its transforms from recipes. Besides the codecs of the library there are three
kinds that show what a transform may do: one that changes letters, one with units of a fixed size,
and a script, which says call by call what is done to the output and how the call ends.

Calls of a script go on record, one event for each thing it does to its output.
-/

import ByteFlow.Transform.Codec

namespace ByteFlow.Session

/-- A use of an output, as it may be asked for by itself. -/
inductive OutputCall where
  | push (data : Bytes)
  | pushSlice (data : Bytes)
  /-- Looks at the scratch buffer, after growing it and writing over its start. -/
  | scratch (length : Nat) (write : Bytes)
  | pushScratch (length : Nat)
  | discardScratch
  | headroom
  | emitted
  | fits (length : Nat)
deriving Inhabited

namespace OutputCall

/-- The name of the call in reports. -/
def label : OutputCall → String
  | .push _ => "push"
  | .pushSlice _ => "push_slice"
  | .scratch .. => "scratch"
  | .pushScratch _ => "push_scratch"
  | .discardScratch => "discard_scratch"
  | .headroom => "headroom"
  | .emitted => "emitted"
  | .fits _ => "fits"

/-- How long the scratch buffer has to be for the call. -/
def scratchLength : OutputCall → Nat
  | .scratch length _ | .pushScratch length => length
  | _ => 0

/-- Does the call on an output whose scratch buffer is long enough for it. -/
def apply (call : OutputCall) (o : Output) : Output × Answer :=
  match call with
  | .push data | .pushSlice data => (o.offer data).map id Answer.ofUnit
  | .scratch _ write =>
    let o := o.overwrite write
    (o, .bytes o.scratch.toList)
  | .pushScratch length => (o.pushScratch length).map id Answer.ofUnit
  | .discardScratch => (o.discardScratch, .ok)
  | .headroom => (o, .number o.headroom)
  | .emitted => (o, .number o.emitted)
  | .fits length => (o, .flag (o.fits length))

/-- Does the call, unless it asks for more scratch than there can be. -/
def perform (call : OutputCall) (o : Output) : Output × Except Misuse Answer :=
  match o.demand call.scratchLength with
  | (o, .error misuse) => (o, .error misuse)
  | (o, .ok ()) => (call.apply o).map id .ok

end OutputCall

/-- A part of the input. -/
inductive Amount where
  | all
  | count (n : Nat)
deriving Inhabited

/-- The number of bytes that an amount stands for. -/
def Amount.of (input : Bytes) : Amount → Nat
  | .all => input.length
  | .count n => n

mutual

/-- What a transform is made from. A size that is left out is the usual one. -/
inductive Recipe where
  | identity (chunkSize : Option Nat)
  | frameDecoder (maxFrame : Option Nat)
  | frameEncoder (maxFrame : Option Nat)
  | lineDecoder (maxLine : Option Nat)
  | lineEncoder (lineInput : Option Nat)
  /-- Turns lower-case letters into upper-case ones. -/
  | upper
  /-- Copies units of `size` bytes. -/
  | units (size : Nat)
  /-- Does what each list says, one list per call, and nothing after the last. -/
  | script (calls : List (List Action))

/-- One thing that a script does. -/
inductive Action where
  | output (call : OutputCall)
  /-- Calls a transform made for this one call on input of its own, over the same output. -/
  | transform (recipe : Recipe) (input : Bytes)
  /-- Pushes a first part of the input. -/
  | pushInput (amount : Amount)
  /-- Pushes, unnoticed; the call fails if that fails. -/
  | pushOrError (data : Bytes)
  /-- Ends the call. -/
  | done (consumed : Amount)
  | underflow (consumed : Amount)
  | error (message : String)
  /-- Breaks a promise. -/
  | raise (message : String)

end

instance : Inhabited Recipe := ⟨.upper⟩

instance : Inhabited Action := ⟨.done .all⟩

/-- A transform of a session. -/
inductive Stage where
  | codec (codec : Codec)
  | upper
  | units (size : Nat)
  | script (calls : List (List Action))
deriving Inhabited

/-- Pushes the input with its lower-case letters replaced. -/
def stepUpper (input : Bytes) (o : Output) : Step × Output :=
  match o.push input.toUpper with
  | .ok o => (.done input.length, o)
  | .error e => (.errored e.toCause, o)

/-- Copies units of `size` bytes from what is left of the input, of which `consumed` bytes were
copied before. -/
def stepUnits (size consumed : Nat) (rest : Bytes) (o : Output) : Step × Output :=
  let unit := rest.take size
  if rest = [] ∨ ¬ o.fits size then (.done consumed, o)
  else if unit.length < size then (.underflow consumed, o)
  else if _h : unit = [] then (.done consumed, o)
  else
    match o.push unit with
    | .error e => (.errored e.toCause, o)
    | .ok o => stepUnits size (consumed + unit.length) (rest.drop unit.length) o
termination_by rest.length
decreasing_by
  have : 0 < unit.length := List.length_pos_iff.2 _h
  have : unit.length ≤ rest.length := List.length_take_le' _ _
  change (rest.drop unit.length).length < rest.length
  rw [List.length_drop]
  omega

namespace Recipe

/-- Makes the transform that a recipe describes. -/
def make : Recipe → Except Misuse Stage
  | .identity none => .ok (.codec (.identity .whole))
  | .identity (some n) => return .codec (.identity (← Identity.chunked n))
  | .frameDecoder none => .ok (.codec (.frameDecoder .standard))
  | .frameDecoder (some n) => .ok (.codec (.frameDecoder ⟨n⟩))
  | .frameEncoder none => .ok (.codec (.frameEncoder .standard))
  | .frameEncoder (some n) => return .codec (.frameEncoder (← FrameEncoder.new n))
  | .lineDecoder none => .ok (.codec (.lineDecoder .standard))
  | .lineDecoder (some n) => .ok (.codec (.lineDecoder ⟨n⟩))
  | .lineEncoder none => .ok (.codec (.lineEncoder .standard))
  | .lineEncoder (some n) => return .codec (.lineEncoder (← LineEncoder.new n))
  | .upper => .ok .upper
  | .units size => .ok (.units size)
  | .script calls => .ok (.script calls)

end Recipe

mutual

/-- Makes a transform and calls it once. -/
def Recipe.call : Recipe → Bytes → Output → Output × Except Misuse Step
  | .script calls, input, o => firstCall calls input o
  | recipe, input, o =>
    match recipe.make with
    | .error misuse => (o, .error misuse)
    | .ok (.codec codec) =>
      let (step, o) := codec.step input o
      (o, .ok step)
    | .ok .upper =>
      let (step, o) := stepUpper input o
      (o, .ok step)
    | .ok (.units size) =>
      let (step, o) := stepUnits size 0 input o
      (o, .ok step)
    | .ok (.script _) => (o, .ok (.done 0))

/-- Does what the first list of a script says. -/
def firstCall : List (List Action) → Bytes → Output → Output × Except Misuse Step
  | [], _, o => (o, .ok (.done 0))
  | actions :: _, input, o => followActions actions input o

/-- Does what a list says, until it ends the call. -/
def followActions : List Action → Bytes → Output → Output × Except Misuse Step
  | [], _, o => (o, .ok (.done 0))
  | .output call :: rest, input, o =>
    match call.perform o with
    | (o, .error misuse) => (o, .error misuse)
    | (o, .ok answer) => followActions rest input (o.record (.output call.label answer))
  | .transform recipe own :: rest, input, o =>
    match recipe.call own o with
    | (o, .error misuse) => (o, .error misuse)
    | (o, .ok step) => followActions rest input (o.record (.output "transform" (.step step)))
  | .pushInput amount :: rest, input, o =>
    let (o, result) := o.offer (input.take (amount.of input))
    followActions rest input (o.record (.output "push_input" (.ofUnit result)))
  | .pushOrError data :: rest, input, o =>
    match o.push data with
    | .ok o => followActions rest input o
    | .error e => (o, .ok (.errored e.toCause))
  | .done consumed :: _, input, o => (o, .ok (.done (consumed.of input)))
  | .underflow consumed :: _, input, o => (o, .ok (.underflow (consumed.of input)))
  | .error message :: _, _, o => (o, .ok (.errored (.text message)))
  | .raise message :: _, _, o => (o, .error (.raised message))

end

/-- One call of a transform of a session. -/
def Stage.call (stage : Stage) (input : Bytes) (o : Output) : Transformed Stage :=
  match stage with
  | .codec c => .ofStep stage (c.step input o)
  | .upper => .ofStep stage (stepUpper input o)
  | .units size => .ofStep stage (stepUnits size 0 input o)
  | .script calls =>
    let (output, result) := firstCall calls input o
    ⟨.script calls.tail, output, result⟩

instance : Transform Stage := ⟨Stage.call⟩

end ByteFlow.Session
