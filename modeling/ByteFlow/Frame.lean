/-
# Length-prefixed frames

A frame is its payload's length, as four bytes with the most significant first, and the payload.
-/

import ByteFlow.Bytes

namespace ByteFlow.Frame

/-- The number of bytes of a header. -/
def headerLength : Nat := 4

/-- Lengths from here on have no header. -/
def lengthLimit : Nat := 0x100000000

/-- The header of a payload of that length. -/
def header (length : Nat) : Bytes :=
  [.ofNat (length / 0x1000000), .ofNat (length / 0x10000), .ofNat (length / 0x100), .ofNat length]

/-- The length that a header announces. -/
def headerValue (a b c d : UInt8) : Nat :=
  ((a.toNat * 256 + b.toNat) * 256 + c.toNat) * 256 + d.toNat

/-- A payload as a frame. -/
def encode (payload : Bytes) : Bytes := header payload.length ++ payload

/-- What the start of a byte string is, read as a frame. -/
inductive Front where
  /-- There are no bytes. -/
  | none
  /-- The header, or the payload behind it, is not complete. -/
  | incomplete
  /-- The header announces more than is accepted. -/
  | tooLong (length : Nat)
  /-- A whole frame, and what follows it. -/
  | whole (payload rest : Bytes)
deriving DecidableEq, Repr, Inhabited

/-- Reads the frame at the start of a byte string. A header that announces too much is seen before
its payload is looked for. -/
def front (max : Nat) (input : Bytes) : Front :=
  match input with
  | [] => .none
  | a :: b :: c :: d :: body =>
    let length := headerValue a b c d
    if max < length then .tooLong length
    else
      let payload := body.take length
      if payload.length < length then .incomplete
      else .whole payload (body.drop length)
  | _ => .incomplete

theorem length_rest_lt_of_front {max : Nat} {input payload rest : Bytes}
    (h : front max input = .whole payload rest) : rest.length < input.length := by
  unfold front at h
  split at h
  · cases h
  · rename_i a b c d body
    simp only at h
    split at h
    · cases h
    · split at h
      · cases h
      · cases h
        simp only [List.length_drop, List.length_cons]
        omega
  · cases h

end ByteFlow.Frame
