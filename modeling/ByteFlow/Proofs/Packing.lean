/-
# Packing pieces

A transform that packs its input cuts it wherever its output is full, so what it makes of a stream
depends on when it is called. In any case it makes a row of units, each of them the encoding of one
piece, and the pieces in a row are the input. It has no use for more bytes than there are, and
nothing is malformed to it.
-/

import ByteFlow.Proofs.FrameReading
import ByteFlow.Proofs.LineReading
import ByteFlow.Proofs.Turning
import ByteFlow.Transform.Codec

namespace ByteFlow

/-- Pieces of a bounded length as units, each of which stands for its encoding. -/
def Format.packing (max : Nat) (encode : Bytes → Bytes) : Format where
  unit piece packed := (piece ≠ [] ∧ piece.length ≤ max) ∧ packed = encode piece
  incomplete _ := False
  rejected _ _ := False
  ne_nil_of_unit unit := unit.1.1

/-- Pieces of at most `max` bytes are put into an output that has `room`. Only a queue that holds
something leaves no room. All this is true of outputs that are `good`, which they stay. -/
structure Packs (good : Output → Prop) (max : Nat) (encode : Bytes → Bytes) (room : Output → Nat)
    (put : Output → Bytes → Output × Except Error Unit) : Prop where
  limited : ∀ o, room o ≤ max
  full : ∀ o, good o → room o = 0 → o.queue.isEmpty = false
  accepts : ∀ o piece, good o → piece ≠ [] → piece.length ≤ room o →
    ∃ after, put o piece = (after, .ok ()) ∧
      after.chunks.flatten = o.chunks.flatten ++ encode piece ∧ good after

namespace Packs

variable {good : Output → Prop} {max : Nat} {encode : Bytes → Bytes} {room : Output → Nat}
  {put : Output → Bytes → Output × Except Error Unit} (packs : Packs good max encode room put)

include packs

theorem handles (consumed : Nat) (rest : Bytes) {o : Output} (holds : good o) :
    (Format.packing max encode).Handles consumed rest o (packPieces room put consumed rest o) := by
  fun_induction packPieces room put consumed rest o with
  | case1 consumed rest o piece none =>
      rcases List.take_eq_nil_iff.1 none with full | rfl
      · exact .full (packs.full o holds full) id
      · exact .nothing
  | case2 consumed rest o piece some after e refused =>
      obtain ⟨_, accepted, _⟩ := packs.accepts o piece holds some (List.length_take_le _ _)
      rw [accepted] at refused
      cases refused
  | case3 consumed rest o piece some after accepted ih =>
      obtain ⟨_, again, flatten, holds⟩ :=
        packs.accepts o piece holds some (List.length_take_le _ _)
      rw [accepted] at again
      cases again
      have ih := ih holds
      have short : piece.length ≤ max :=
        Nat.le_trans (List.length_take_le _ _) (packs.limited o)
      have unit := Format.Handles.unit (F := .packing max encode) ⟨⟨some, short⟩, rfl⟩ flatten ih
      rw [List.prefix_iff_eq_append.1 (List.take_prefix _ _)] at unit
      exact unit

/-- What is good stays good, and no piece is refused. -/
theorem keeps (consumed : Nat) (rest : Bytes) {o : Output} (holds : good o) :
    ∃ total, (packPieces room put consumed rest o).1 = .done total ∧ consumed ≤ total ∧
      good (packPieces room put consumed rest o).2 := by
  fun_induction packPieces room put consumed rest o with
  | case1 consumed rest o piece none => exact ⟨consumed, rfl, Nat.le_refl _, holds⟩
  | case2 consumed rest o piece some after e refused =>
      obtain ⟨_, accepted, _⟩ := packs.accepts o piece holds some (List.length_take_le _ _)
      rw [accepted] at refused
      cases refused
  | case3 consumed rest o piece some after accepted ih =>
      obtain ⟨_, again, _, holds⟩ := packs.accepts o piece holds some (List.length_take_le _ _)
      rw [accepted] at again
      cases again
      obtain ⟨total, eq, le, kept⟩ := ih holds
      exact ⟨total, eq, Nat.le_trans (Nat.le_add_right _ _) le, kept⟩

/-- Where there is room, something of the input is used. -/
theorem uses (consumed : Nat) {rest : Bytes} (some : rest ≠ []) {o : Output} (holds : good o)
    (free : room o ≠ 0) :
    ∃ total, (packPieces room put consumed rest o).1 = .done total ∧ consumed < total := by
  have piece : rest.take (room o) ≠ [] := fun none =>
    (List.take_eq_nil_iff.1 none).elim free some
  obtain ⟨after, accepted, _, holds⟩ := packs.accepts o _ holds piece (List.length_take_le _ _)
  obtain ⟨total, eq, le, _⟩ := packs.keeps (consumed + (rest.take (room o)).length)
    (rest.drop (rest.take (room o)).length) holds
  refine ⟨total, ?_, Nat.lt_of_lt_of_le (Nat.lt_add_of_pos_right (List.length_pos_iff.2 piece)) le⟩
  rw [packPieces, dif_neg piece, accepted]
  exact eq

end Packs

namespace Output

/-- A chunk that fits is accepted. -/
theorem offer_of_fits {o : Output} {chunk : Bytes} (room : o.fits chunk.length) :
    ∃ after, o.offer chunk = (after, .ok ()) ∧
      after.chunks.flatten = o.chunks.flatten ++ chunk := by
  obtain ⟨after, accepted, flatten⟩ := push_of_fits room
  exact ⟨after, by rw [offer, accepted], flatten⟩

theorem fits_of_le_headroom {o : Output} {length : Nat} (le : length ≤ o.headroom) :
    o.fits length :=
  Bool.or_eq_true_iff.2 (.inr (decide_eq_true le))

theorem reserve_eq (o : Output) (length : Nat) :
    ∃ scratch events, o.reserve length = { o with scratch, events } ∧ length ≤ scratch.size := by
  unfold reserve
  split
  · rename_i short
    refine ⟨_, _, rfl, ?_⟩
    rw [← Block.length_toList, Block.toList_append, List.length_append, List.length_replicate,
      Block.length_toList]
    omega
  · rename_i enough
    exact ⟨o.scratch, o.events, rfl, Nat.not_lt.1 enough⟩

end Output

/-- A copier packs single bytes, as many at a time as there is room for. Below a ceiling of at least
one byte, an empty queue always has room for some. -/
theorem Identity.packs_of_valid (t : Identity) :
    Packs (fun o => o.queue.Valid ∧ 0 < o.ceiling) t.chunkSize id
      (fun o => min t.chunkSize o.headroom) Output.offer where
  limited o := Nat.min_le_left _ _
  full o good none := by
    have limit := t.chunkSize_pos
    have some := good.2
    unfold Output.headroom at none
    rw [Bool.eq_false_iff, ne_eq, Queue.isEmpty_iff_bytes_eq_zero good.1]
    omega
  accepts o piece good held le := by
    have inside : piece.length ≤ o.headroom := Nat.le_trans le (Nat.min_le_right _ _)
    obtain ⟨after, accepted, flatten⟩ := Output.push_of_fits (Output.fits_of_le_headroom inside)
    refine ⟨after, by rw [Output.offer, accepted], flatten, ?_⟩
    obtain ⟨none, _⟩ | ⟨_, rfl⟩ := Output.push_eq_ok accepted
    · exact (held none).elim
    · exact ⟨good.1.pushBack (Ring.valid_wrap piece), good.2⟩

namespace FrameEncoder

/-- To put a payload is to offer its frame; only the scratch buffer changes besides. -/
theorem put_eq (o : Output) (payload : Bytes) :
    ∃ scratch events, put o payload =
      Output.offer { o with scratch, events } (Frame.encode payload) := by
  obtain ⟨scratch, events, reserved, enough⟩ := o.reserve_eq (Frame.encode payload).length
  have written : (scratch.write 0 (Frame.encode payload)).toList =
      Frame.encode payload ++ scratch.toList.drop (Frame.encode payload).length := by
    rw [Block.toList_write, List.take_zero, List.nil_append, Nat.zero_add]
  have sized : ¬(scratch.write 0 (Frame.encode payload)).size < (Frame.encode payload).length := by
    rw [← Block.length_toList, written, List.length_append]
    omega
  refine ⟨scratch.write 0 (Frame.encode payload), events, ?_⟩
  unfold put Output.pushScratch Output.overwrite
  dsimp only
  rw [reserved]
  dsimp only
  rw [List.take_of_length_le enough, Output.reserve, if_neg sized, Block.toList_slice, written,
    List.drop_zero, List.take_left]

/-- An encoder packs pieces into frames. -/
theorem packs (t : FrameEncoder) :
    Packs (fun _ => True) t.maxFrame Frame.encode (fun o => min t.maxFrame (room o)) put where
  limited o := Nat.min_le_left _ _
  full o _ none := by
    have limit := t.maxFrame_pos
    unfold room at none
    split at none
    · split at none
      · omega
      · rename_i full
        exact Output.isEmpty_of_not_fits full
    · omega
  accepts o piece _ some le := by
    obtain ⟨scratch, events, eq⟩ := put_eq o piece
    have fits : o.fits (Frame.encode piece).length := by
      have inside := Nat.le_trans le (Nat.min_le_right _ _)
      have counted := List.length_pos_iff.2 some
      rw [Frame.length_encode]
      unfold room at inside
      split at inside
      · split at inside
        · rename_i single
          exact Output.fits_of_le single (Nat.add_le_add_left inside _)
        · omega
      · apply Output.fits_of_le_headroom
        omega
    rw [eq]
    obtain ⟨after, accepted, flatten⟩ :=
      Output.offer_of_fits (o := { o with scratch, events }) fits
    exact ⟨after, accepted, flatten, trivial⟩

/-- Frames around pieces as the units of an encoder. -/
abbrev format (t : FrameEncoder) : Format := .packing t.maxFrame Frame.encode

theorem codes (t : FrameEncoder) : t.format.Codes (Codec.frameEncoder t) where
  same _ _ := rfl
  handles input _ _ _ := ⟨_, rfl, t.packs.handles 0 input trivial⟩

end FrameEncoder

theorem Line.length_encode (chunk : Bytes) :
    (encode chunk).length = encodedLength chunk.length := by
  rw [encode, List.length_append, Base64.length_encode]
  rfl

namespace LineEncoder

/-- An encoder packs pieces into lines. -/
theorem packs (t : LineEncoder) :
    Packs (fun _ => True) t.lineInput Line.encode (fun o => min t.lineInput (room o)) put where
  limited o := Nat.min_le_left _ _
  full o _ none := by
    have limit := t.lineInput_pos
    unfold room at none
    split at none
    · split at none
      · omega
      · rename_i full
        exact Output.isEmpty_of_not_fits full
    · omega
  accepts o piece _ some le := by
    have fits : o.fits (Line.encode piece).length := by
      have inside := Nat.le_trans le (Nat.min_le_right _ _)
      have counted := List.length_pos_iff.2 some
      rw [Line.length_encode]
      unfold Line.encodedLength Base64.encodedLength
      unfold room at inside
      split at inside
      · split at inside
        · rename_i single
          refine Output.fits_of_le single ?_
          unfold Line.encodedLength Base64.encodedLength
          omega
        · omega
      · apply Output.fits_of_le_headroom
        omega
    obtain ⟨after, accepted, flatten⟩ := Output.offer_of_fits fits
    exact ⟨after, accepted, flatten, trivial⟩

abbrev format (t : LineEncoder) : Format := .packing t.lineInput Line.encode

theorem codes (t : LineEncoder) : t.format.Codes (Codec.lineEncoder t) where
  same _ _ := rfl
  handles input _ _ _ := ⟨_, rfl, t.packs.handles 0 input trivial⟩

end LineEncoder

end ByteFlow
