/-
# Lines in a row

An encoder of lines cuts its input wherever a call ends, where a line is as long as it may be, or
where the queue has no room for more, so that a line with padding may stand anywhere in what it
writes. Each chunk that it pushes is one whole line all the same, and a decoder whose limit is not
lower than the longest of them reads just the bytes that were consumed, wherever its own calls are
cut: there is no carriage return that a cut could sever from its line feed.
-/

import ByteFlow.Proofs.LineSplits
import ByteFlow.Proofs.RoundTrip
import ByteFlow.Proofs.Series

namespace ByteFlow

namespace Line

/-- A chunk is one line: symbols that encode a payload, and the only line feed behind them. The
payload is neither empty nor longer than `max`, and its length says how long the line is. -/
def Single (max : Nat) (chunk : Bytes) : Prop :=
  ∃ symbols payload, chunk = symbols ++ [feed] ∧ feed ∉ symbols ∧
    Base64.decode symbols = some payload ∧ chunk.length = encodedLength payload.length ∧
    1 ≤ payload.length ∧ payload.length ≤ max

theorem single_encode {max : Nat} {payload : Bytes} (held : payload ≠ [])
    (le : payload.length ≤ max) : Single max (encode payload) :=
  ⟨_, payload, rfl, (Base64.unbroken_encode payload).1, Base64.decode_encode payload,
    length_encode payload, List.length_pos_iff.2 held, le⟩

theorem encode_ne_nil (chunk : Bytes) : encode chunk ≠ [] := List.concat_ne_nil _ _

/-- No line that was encoded has a carriage return. -/
theorem carriageReturn_not_mem_encode (chunk : Bytes) : carriageReturn ∉ encode chunk := by
  intro member
  rcases List.mem_append.1 member with inside | last
  · exact (Base64.unbroken_encode chunk).2 inside
  · cases List.mem_singleton.1 last

end Line

namespace LineDecoder

variable {t : LineDecoder}

/-- Where there is no carriage return, no cut severs one from its line feed. -/
theorem not_severed_of_not_mem {pieces : List Bytes}
    (smooth : Line.carriageReturn ∉ pieces.flatten) : ¬t.Severed [] pieces := by
  intro ⟨before, after, split, _, tail, _⟩
  rw [List.nil_append] at tail
  have suffix := t.tail_suffix before.flatten
  rw [tail] at suffix
  refine smooth ?_
  rw [split, List.flatten_append]
  exact List.mem_append_left _ (suffix.subset List.mem_concat_self)

/-- Encoded lines that are short enough are read as what was encoded. -/
theorem read_lines {payloads : List Bytes}
    (short : ∀ payload ∈ payloads, Base64.encodedLength payload.length ≤ t.maxLine) :
    t.read (payloads.map Line.encode).flatten = ⟨payloads.flatten, [], none⟩ := by
  induction payloads with
  | nil => exact read_nil
  | cons payload payloads ih =>
      obtain ⟨first, others⟩ := List.forall_mem_cons.1 short
      have unit : t.format.unit (Line.encode payload) payload :=
        ⟨_, rfl, (Base64.unbroken_encode payload).1, judge_encode first⟩
      rw [List.map_cons, List.flatten_cons, t.reads_read.unit unit, ih others]
      rfl

/-- They are fed as what was encoded, too, wherever they are cut. -/
theorem feed_lines {payloads : List Bytes}
    (short : ∀ payload ∈ payloads, Base64.encodedLength payload.length ≤ t.maxLine)
    (ceiling : Nat) {pieces : List Bytes}
    (cut : pieces.flatten = (payloads.map Line.encode).flatten) :
    Decoder.feed t.step ceiling pieces = some ⟨payloads.flatten, [], none⟩ := by
  have smooth : Line.carriageReturn ∉ pieces.flatten := by
    rw [cut]
    intro member
    obtain ⟨_, line, member⟩ := List.mem_flatten.1 member
    obtain ⟨payload, _, rfl⟩ := List.mem_map.1 line
    exact Line.carriageReturn_not_mem_encode payload member
  obtain ⟨fed, eq, ⟨comes, _⟩ | ⟨before, after, split, severs, _⟩⟩ :=
    t.outcome_feedFrom ceiling [] pieces read_nil
  · rw [List.nil_append, cut, read_lines short] at comes
    rw [Decoder.feed, eq, comes.eq rfl]
  · exact (not_severed_of_not_mem smooth ⟨before, after, split, severs⟩).elim

end LineDecoder

namespace LineEncoder

variable (t : LineEncoder)

/-- Bytes for which there is room are put into one more chunk, which is their line. -/
theorem chunks_put {o : Output} {payload : Bytes} (held : payload ≠ [])
    (le : payload.length ≤ min t.lineInput (room o)) :
    (put o payload).2 = .ok () ∧ (put o payload).1.chunks = o.chunks ++ [Line.encode payload] := by
  obtain ⟨_, accepted, _⟩ := t.packs.accepts o payload trivial held le
  exact Output.chunks_of_offer (Line.encode_ne_nil payload) accepted

/-- A call takes a first part of its input and pushes it as lines. -/
theorem takesPieces_step : Series.TakesPieces t.lineInput Line.encode t.step := by
  intro input o
  obtain ⟨payloads, front, each, step, chunks⟩ :=
    packPieces_eq_done (fun o => Nat.min_le_left t.lineInput (room o)) t.chunks_put 0 input o
  rw [Nat.zero_add] at step
  exact ⟨payloads, front, each, step, chunks⟩

/-- However the input is cut, whatever the queue and the ceiling are on each occasion: every chunk
is a single line, the payloads in a row are the bytes that were consumed, and a decoder whose limit
is not lower reads just these bytes, with nothing left over and without an error, however the row of
chunks is cut. -/
theorem run_decodes (data : Bytes) (occasions : List Occasion) :
    let series := Series.run t.step data occasions
    series.failure = none ∧ series.consumed ++ series.rest = data ∧
      (∀ chunk ∈ series.chunks, Line.Single t.lineInput chunk) ∧
      (∃ payloads : List Bytes, payloads.map Line.encode = series.chunks ∧
        payloads.flatten = series.consumed) ∧
      ∀ decoder : LineDecoder, Base64.encodedLength t.lineInput ≤ decoder.maxLine →
        ∀ (ceiling : Nat) (pieces : List Bytes), pieces.flatten = series.chunks.flatten →
          Decoder.feed decoder.step ceiling pieces = some ⟨series.consumed, [], none⟩ := by
  obtain ⟨payloads, whole, each, consumed, chunks, failure⟩ :=
    Series.run_eq_pieces t.takesPieces_step data occasions
  dsimp only
  rw [consumed, chunks]
  refine ⟨failure, whole, ?_, ⟨payloads, rfl, rfl⟩, ?_⟩
  · intro chunk member
    obtain ⟨payload, taken, rfl⟩ := List.mem_map.1 member
    obtain ⟨held, short⟩ := each payload taken
    exact Line.single_encode held short
  · intro decoder le ceiling pieces cut
    refine LineDecoder.feed_lines (fun payload member => Nat.le_trans ?_ le) ceiling cut
    have short := (each payload member).2
    unfold Base64.encodedLength
    omega

end LineEncoder

/-! ## Four lines -/

namespace Parchment

/-- An encoder of four bytes to a line. -/
def encoder : LineEncoder := ⟨4, Nat.succ_pos 3⟩

/-- The letters from A to K. -/
def data : Bytes := [65, 66, 67, 68, 69, 70, 71, 72, 73, 74, 75]

/-- Five bytes are given with room for all of them, then four with room for a line of three. The
third call is given all that is left, but too much waits in the queue; the fourth one meets an empty
queue, which takes a line that is longer than the ceiling. -/
def occasions : List Occasion :=
  [⟨5, .empty, .empty, 100⟩, ⟨4, Queue.empty.pushBack (.wrap [8]), .empty, 6⟩,
    ⟨9, Queue.empty.pushBack (.wrap [8]), .empty, 5⟩, ⟨9, .empty, .empty, 1⟩]

end Parchment

/-- Two lines have padding, and are not the last. Eleven bytes are consumed. -/
theorem run_decodes_parchment :
    (Series.run Parchment.encoder.step Parchment.data Parchment.occasions).chunks =
        [[81, 85, 74, 68, 82, 65, 61, 61, 10], [82, 81, 61, 61, 10], [82, 107, 100, 73, 10],
          [83, 85, 112, 76, 10]] ∧
      Decoder.feed (LineDecoder.mk 8).step 1
        [[81, 85, 74, 68, 82, 65, 61, 61], [10, 82, 81, 61, 61, 10, 82],
          [107, 100, 73, 10, 83, 85, 112, 76, 10]] =
            some ⟨[65, 66, 67, 68, 69, 70, 71, 72, 73, 74, 75], [], none⟩ := by
  have comes : Series.run Parchment.encoder.step Parchment.data Parchment.occasions =
      ⟨[65, 66, 67, 68, 69, 70, 71, 72, 73, 74, 75],
        [[81, 85, 74, 68, 82, 65, 61, 61, 10], [82, 81, 61, 61, 10], [82, 107, 100, 73, 10],
          [83, 85, 112, 76, 10]], [], none⟩ := by decide +kernel
  obtain ⟨_, _, _, _, decodes⟩ :=
    LineEncoder.run_decodes Parchment.encoder Parchment.data Parchment.occasions
  refine ⟨congrArg Series.chunks comes, ?_⟩
  rw [comes] at decodes
  exact decodes ⟨8⟩ (by decide) 1 _ rfl

end ByteFlow
