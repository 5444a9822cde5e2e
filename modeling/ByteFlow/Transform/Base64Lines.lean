/-
# Base64 lines

Each line is the base64 encoding of one chunk and ends with a line feed, which a carriage return
may precede. Empty lines stand for nothing. The encoder cuts its input to whole groups of three
bytes where it can, and to what fits below the ceiling; only a ceiling too low for the line of a
single group is passed.
-/

import ByteFlow.Base64
import ByteFlow.Transform.Pieces

namespace ByteFlow

/-- Decodes lines of at most `maxLine` symbols. -/
structure LineDecoder where
  maxLine : Nat
deriving DecidableEq, Repr

/-- Encodes at most `lineInput` bytes per line. -/
structure LineEncoder where
  lineInput : Nat
  lineInput_pos : 0 < lineInput

namespace Line

/-- The byte that ends a line. -/
def feed : UInt8 := 10

/-- The byte that may come before the end of a line. -/
def carriageReturn : UInt8 := 13

/-- The line limit where none is given. -/
def defaultMax : Nat := 16 * 1024

/-- The input per line where nothing else is asked for: 76 symbols. -/
def defaultInput : Nat := 57

/-- What the start of a byte string is, read as a line. -/
inductive Front where
  /-- There are no bytes. -/
  | none
  /-- No line feed ends the line. -/
  | unended
  /-- A line without its line feed, and what follows it. -/
  | ended (line rest : Bytes)
deriving DecidableEq, Repr, Inhabited

/-- Reads the line at the start of a byte string. -/
def front (input : Bytes) : Front :=
  if input = [] then .none
  else
    match input.dropWhile (· != feed) with
    | [] => .unended
    | _ :: rest => .ended (input.takeWhile (· != feed)) rest

theorem length_of_front_eq_ended {input line rest : Bytes} (h : front input = .ended line rest) :
    input.length = line.length + (rest.length + 1) := by
  unfold front at h
  split at h
  · cases h
  · split at h
    · cases h
    · rename_i split
      cases h
      have whole := congrArg List.length
        (List.takeWhile_append_dropWhile (p := (· != feed)) (l := input))
      rw [split, List.length_append, List.length_cons] at whole
      exact whole.symm

/-- A line without the carriage return at its end. -/
def trim (line : Bytes) : Bytes :=
  if line.getLast? = some carriageReturn then line.dropLast else line

/-- A chunk as a line. -/
def encode (chunk : Bytes) : Bytes := Base64.encode chunk ++ [feed]

/-- The length of the line of that many bytes. -/
def encodedLength (length : Nat) : Nat := Base64.encodedLength length + 1

end Line

namespace LineDecoder

/-- The decoder with the usual limit. -/
def standard : LineDecoder := ⟨Line.defaultMax⟩

/-- Decodes what is left of the input, of which `consumed` bytes were used before. -/
def unpack (t : LineDecoder) (consumed : Nat) (rest : Bytes) (o : Output) : Step × Output :=
  match _h : Line.front rest with
  | .none => (.done consumed, o)
  | .unended =>
    if t.maxLine < rest.length then (.errored (.lineTooLong t.maxLine), o)
    else (.underflow consumed, o)
  | .ended ended next =>
    let line := Line.trim ended
    if t.maxLine < line.length then (.errored (.lineTooLong t.maxLine), o)
    else if line = [] then t.unpack (consumed + (ended.length + 1)) next o
    else if o.fits (line.length / 4 * 3) then
      match Base64.decode line with
      | none => (.errored .invalidBase64, o)
      | some chunk =>
        match o.push chunk with
        | .error e => (.errored e.toCause, o)
        | .ok o => t.unpack (consumed + (ended.length + 1)) next o
    else (.done consumed, o)
termination_by rest.length
decreasing_by
  all_goals
    have shorter := Line.length_of_front_eq_ended _h
    omega

/-- One call of the transform. -/
def step (t : LineDecoder) (input : Bytes) (o : Output) : Step × Output := t.unpack 0 input o

end LineDecoder

namespace LineEncoder

/-- The encoder with the usual line length. -/
def standard : LineEncoder := ⟨Line.defaultInput, by decide⟩

/-- The encoder with a given input per line. -/
def new (lineInput : Nat) : Except Misuse LineEncoder :=
  if h : 0 < lineInput then .ok ⟨lineInput, h⟩ else .error .zeroLineInput

/-- How much input a line may hold to be accepted: whole groups of three bytes. -/
def room (o : Output) : Nat :=
  if (o.headroom - 1) / 4 * 3 = 0 then
    if o.fits (Line.encodedLength 3) then 3 else 0
  else (o.headroom - 1) / 4 * 3

/-- Pushes a chunk as a line. -/
def put (o : Output) (chunk : Bytes) : Output × Except Error Unit := o.offer (Line.encode chunk)

/-- One call of the transform. -/
def step (t : LineEncoder) (input : Bytes) (o : Output) : Step × Output :=
  packPieces (fun o => min t.lineInput (room o)) put 0 input o

end LineEncoder

end ByteFlow
