/-
# Blocks

A block holds bytes next to one another, so that part of it can be read or overwritten without
going through the rest. Rings, scratch buffers and sinks keep their bytes in blocks; bytes that move
from one to the other are lists. `Block.toList` is the content of a block, and every operation is
described by what it does to that list.
-/

import ByteFlow.Bytes
import ByteFlow.Error

namespace ByteFlow

/-- Bytes that lie next to one another. -/
structure Block where
  data : ByteArray

instance : DecidableEq Block := fun a b =>
  match ByteArray.instDecidableEq a.data b.data with
  | isTrue same => isTrue (congrArg Block.mk same)
  | isFalse differ => isFalse fun same => differ (congrArg Block.data same)

namespace Block

def empty : Block := ⟨.empty⟩

instance : Inhabited Block := ⟨empty⟩

/-- A block with the given bytes. -/
def ofList (bytes : Bytes) : Block := ⟨bytes.toByteArray⟩

/-- The bytes of a block, in order. -/
def toList (b : Block) : Bytes := b.data.data.toList

instance : Repr Block := ⟨fun b => reprPrec b.toList⟩

/-- The number of bytes. -/
def size (b : Block) : Nat := b.data.size

/-- The largest size of a block: the distance of two bytes in it has to fit a signed word. -/
def maxSize : Nat := 0x7fffffffffffffff

/-- Asks for room for that many bytes. To ask for more than a block can have is a misuse. -/
def request (size : Nat) : Except Misuse Unit :=
  if size ≤ maxSize then .ok () else .error .unaddressable

/-- At most `count` bytes, from the one at `start` on. -/
def slice (b : Block) (start count : Nat) : Block :=
  if start < b.size then ⟨b.data.extract start (start + min count (b.size - start))⟩ else empty

/-- Writes bytes over those from `start` on. The block becomes longer if they reach beyond it. -/
def write (b : Block) (start : Nat) (bytes : Bytes) : Block :=
  ⟨bytes.toByteArray.copySlice 0 b.data start bytes.length false⟩

/-- Adds bytes at the end. -/
def append (b : Block) (bytes : Bytes) : Block := b.write b.size bytes

/-- Moves the bytes before `start` behind all others. -/
def rotate (b : Block) (start : Nat) : Block :=
  ⟨(b.slice start b.size).data ++ (b.slice 0 start).data⟩

/-- The 64-bit FNV-1a hash: per byte an exclusive or, then a product modulo 2^64. -/
def fingerprint (b : Block) : UInt64 :=
  b.data.foldl (fun h byte => (h ^^^ byte.toUInt64) * 0x100000001b3) 0xcbf29ce484222325

/-- A block is its content. -/
theorem toList_injective {a b : Block} (h : a.toList = b.toList) : a = b := by
  cases a
  cases b
  exact congrArg Block.mk (ByteArray.ext (Array.toList_inj.1 h))

@[simp]
theorem length_toList (b : Block) : b.toList.length = b.size := rfl

@[simp]
theorem toList_empty : empty.toList = [] := rfl

@[simp]
theorem size_empty : empty.size = 0 := rfl

@[simp]
theorem toList_ofList (bytes : Bytes) : (ofList bytes).toList = bytes := by
  simp [ofList, toList]

@[simp]
theorem size_ofList (bytes : Bytes) : (ofList bytes).size = bytes.length := by
  rw [← length_toList, toList_ofList]

@[simp]
theorem toList_slice (b : Block) (start count : Nat) :
    (b.slice start count).toList = (b.toList.drop start).take count := by
  have length : (b.toList.drop start).length = b.size - start := by
    rw [List.length_drop, length_toList]
  unfold slice
  split
  · rw [toList, ByteArray.data_extract, Array.toList_extract, List.extract_eq_take_drop,
      Nat.add_sub_cancel_left, ← toList]
    by_cases long : count ≤ b.size - start
    · rw [Nat.min_eq_left long]
    · rw [Nat.min_eq_right (by omega), List.take_of_length_le (by omega),
        List.take_of_length_le (by omega)]
  · rw [toList_empty, List.drop_of_length_le (by rw [length_toList]; omega), List.take_nil]

@[simp]
theorem size_slice (b : Block) (start count : Nat) :
    (b.slice start count).size = min count (b.size - start) := by
  rw [← length_toList, toList_slice, List.length_take, List.length_drop, length_toList]

@[simp]
theorem toList_write (b : Block) (start : Nat) (bytes : Bytes) :
    (b.write start bytes).toList =
      b.toList.take start ++ bytes ++ b.toList.drop (start + bytes.length) := by
  have all : (b.toList.drop (start + bytes.length)).take (b.size - (start + bytes.length)) =
      b.toList.drop (start + bytes.length) :=
    List.take_of_length_le (Nat.le_of_eq (by rw [List.length_drop, length_toList]))
  simpa only [toList, size, write, ByteArray.copySlice, List.data_toByteArray, ByteArray.size_data,
    Array.append_assoc, Array.toList_append, Array.toList_extract, List.extract_toArray,
    List.size_toArray, List.extract_eq_take_drop, List.append_assoc, List.append_cancel_left_eq,
    List.drop_zero, List.take_length, Nat.zero_add, Nat.sub_zero, Nat.min_eq_left, Std.le_refl]
    using all

@[simp]
theorem write_nil (b : Block) (start : Nat) : b.write start [] = b :=
  toList_injective (by rw [toList_write, List.append_nil]; exact List.take_append_drop _ _)

@[simp]
theorem toList_append (b : Block) (bytes : Bytes) :
    (b.append bytes).toList = b.toList ++ bytes := by
  rw [append, toList_write, List.take_of_length_le (Nat.le_of_eq (length_toList b)),
    List.drop_of_length_le (by rw [length_toList]; omega), List.append_nil]

@[simp]
theorem toList_rotate (b : Block) (start : Nat) :
    (b.rotate start).toList = b.toList.drop start ++ b.toList.take start := by
  have left := toList_slice b start b.size
  have right := toList_slice b 0 start
  rw [List.take_of_length_le (by rw [List.length_drop, length_toList]; omega)] at left
  rw [List.drop_zero] at right
  rw [rotate, ← left, ← right, toList, ByteArray.data_append, Array.toList_append, ← toList,
    ← toList]

theorem size_write (b : Block) (start : Nat) (bytes : Bytes) :
    (b.write start bytes).size =
      min start b.size + bytes.length + (b.size - (start + bytes.length)) := by
  rw [← length_toList, toList_write, List.length_append, List.length_append, List.length_take,
    List.length_drop, length_toList]

@[simp]
theorem size_rotate (b : Block) (start : Nat) : (b.rotate start).size = b.size := by
  rw [← length_toList, toList_rotate, List.length_append, List.length_drop, List.length_take,
    length_toList]
  omega

end Block

end ByteFlow
