/-
# Base64

The standard base64 encoding with padding: every three bytes become four symbols of six bits, and a
last group of one or two bytes is filled up with `=`. Decoding accepts exactly what encoding
produces; bits that padding leaves over have to be zero.
-/

import ByteFlow.Bytes

namespace ByteFlow.Base64

/-- The symbol that fills up the last group. -/
def padding : UInt8 := 61

/-- The symbol of a six-bit value: letters, digits, `+` and `/`. -/
def symbol (value : Nat) : UInt8 :=
  if value < 26 then .ofNat (65 + value)
  else if value < 52 then .ofNat (97 + (value - 26))
  else if value < 62 then .ofNat (48 + (value - 52))
  else if value = 62 then 43
  else 47

/-- The six-bit value of a symbol. -/
def value? (s : UInt8) : Option Nat :=
  if 65 ≤ s ∧ s ≤ 90 then some (s.toNat - 65)
  else if 97 ≤ s ∧ s ≤ 122 then some (s.toNat - 97 + 26)
  else if 48 ≤ s ∧ s ≤ 57 then some (s.toNat - 48 + 52)
  else if s = 43 then some 62
  else if s = 47 then some 63
  else none

/-- Encodes a byte string behind what was encoded already, with the newest symbol first. -/
def encodeOnto (done : Bytes) : Bytes → Bytes
  | [] => done
  | [a] =>
    let n := a.toNat * 16
    padding :: padding :: symbol (n % 64) :: symbol (n / 64) :: done
  | [a, b] =>
    let n := (a.toNat * 256 + b.toNat) * 4
    padding :: symbol (n % 64) :: symbol (n / 64 % 64) :: symbol (n / (64 * 64)) :: done
  | a :: b :: c :: rest =>
    let n := (a.toNat * 256 + b.toNat) * 256 + c.toNat
    encodeOnto
      (symbol (n % 64) :: symbol (n / 64 % 64) :: symbol (n / (64 * 64) % 64) ::
        symbol (n / (64 * 64 * 64)) :: done)
      rest

/-- Encodes a byte string. -/
def encode (bytes : Bytes) : Bytes := (encodeOnto [] bytes).reverse

/-- The length of the encoding of that many bytes. -/
def encodedLength (length : Nat) : Nat := (length + 2) / 3 * 4

/-- Decodes a group of four symbols that has no padding; the newest byte comes first. -/
def decodeGroup (a b c d : UInt8) : Option Bytes := do
  let a ← value? a
  let b ← value? b
  let c ← value? c
  let d ← value? d
  let n := ((a * 64 + b) * 64 + c) * 64 + d
  return [.ofNat (n % 256), .ofNat (n / 256 % 256), .ofNat (n / (256 * 256))]

/-- Decodes the last group of four symbols, which may be filled up; the newest byte comes first. -/
def decodeLast (a b c d : UInt8) : Option Bytes := do
  if d = padding then
    let a ← value? a
    let b ← value? b
    if c = padding then
      if b % 16 = 0 then return [.ofNat ((a * 64 + b) / 16)] else none
    else
      let c ← value? c
      let n := ((a * 64 + b) * 64 + c) / 4
      if c % 4 = 0 then return [.ofNat (n % 256), .ofNat (n / 256)] else none
  else decodeGroup a b c d

/-- Decodes symbols behind what was decoded already, with the newest byte first. -/
def decodeOnto (done : Bytes) : Bytes → Option Bytes
  | [] => some done
  | [a, b, c, d] => (decodeLast a b c d).map (· ++ done)
  | a :: b :: c :: d :: rest =>
    match decodeGroup a b c d with
    | some group => decodeOnto (group ++ done) rest
    | none => none
  | _ => none

/-- Decodes symbols; `none` if they are not the encoding of any byte string. -/
def decode (symbols : Bytes) : Option Bytes := (decodeOnto [] symbols).map List.reverse

end ByteFlow.Base64
