/-
# Byte strings

Everything that moves through a buffer is a list of bytes in stream order. Sizes are natural
numbers; the largest word stands for "no limit" wherever a size may be left out.
-/

namespace ByteFlow

/-- A byte string, in stream order. -/
abbrev Bytes := List UInt8

/-- The largest size a 64-bit word can hold, which no buffer ever reaches. -/
def unlimited : Nat := 0xffffffffffffffff

namespace Bytes

/-- The upper-case form of an ASCII letter; every other byte is left alone. -/
def upperByte (b : UInt8) : UInt8 :=
  if 97 ≤ b ∧ b ≤ 122 then b - 32 else b

/-- Replaces every lower-case ASCII letter by its upper-case form. -/
def toUpper (bytes : Bytes) : Bytes := bytes.map upperByte

/-- The number of bytes in several byte strings. -/
def count (chunks : List Bytes) : Nat := chunks.foldr (·.length + ·) 0

end Bytes

end ByteFlow
