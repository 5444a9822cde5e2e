/-
# Frames in a row

An encoder is called again and again, each time on a first part of what it has left. In between its
queue may be drained, its ceiling may be another one, and the scratch buffer may hold anything. Each
chunk that it pushes is one frame all the same, the payloads in a row are the bytes that it
consumed, and a decoder whose limit is not lower gets just these bytes back.

Where a payload ends depends on the room in the queue. It does not depend on the scratch buffer,
which is longer than the frame that is put together in it, if a longer frame was there before.
-/

import ByteFlow.Proofs.Series

namespace ByteFlow

namespace Frame

/-- A chunk is one frame: four bytes that announce, the most significant first, the length of the
payload behind them. The payload is neither empty nor longer than `max`. -/
def Single (max : Nat) (chunk : Bytes) : Prop :=
  ∃ a b c d payload, chunk = a :: b :: c :: d :: payload ∧
    headerValue a b c d = payload.length ∧ 1 ≤ payload.length ∧ payload.length ≤ max

theorem single_encode {max : Nat} {payload : Bytes} (held : payload ≠ [])
    (le : payload.length ≤ max) (lt : max < lengthLimit) : Single max (encode payload) :=
  ⟨_, _, _, _, payload, rfl, headerValue_ofNat (Nat.lt_of_le_of_lt le lt),
    List.length_pos_iff.2 held, le⟩

end Frame

/-! ## Outputs that differ in the scratch buffer -/

namespace Output

/-- Two outputs are the same but for the scratch buffer and what is on record about it. -/
structure Alike (o o' : Output) : Prop where
  queue : o'.queue = o.queue
  ceiling : o'.ceiling = o.ceiling
  pushed : o'.pushed = o.pushed

theorem Alike.offer {o o' : Output} (alike : o.Alike o') (chunk : Bytes) :
    (o'.offer chunk).2 = (o.offer chunk).2 ∧ (o.offer chunk).1.Alike (o'.offer chunk).1 := by
  have room : o'.fits chunk.length = o.fits chunk.length := by
    unfold fits headroom
    rw [alike.queue, alike.ceiling]
  unfold Output.offer push
  rw [room]
  by_cases none : chunk.isEmpty
  · rw [if_pos none, if_pos none]
    exact ⟨rfl, alike⟩
  · rw [if_neg none, if_neg none]
    by_cases fits : o.fits chunk.length
    · rw [if_pos fits, if_pos fits]
      refine ⟨rfl, ?_, alike.ceiling, congrArg (chunk :: ·) alike.pushed⟩
      exact congrArg (Queue.pushBack · (.wrap chunk)) alike.queue
    · rw [if_neg fits, if_neg fits]
      exact ⟨rfl, alike⟩

end Output

/-! ## One call -/

section Pieces

variable {room : Output → Nat} {put : Output → Bytes → Output × Except Error Unit}

/-- If neither the room nor what comes of putting a piece depends on the scratch buffer, then
packing does not. -/
theorem packPieces_of_alike (measures : ∀ {o o' : Output}, o.Alike o' → room o' = room o)
    (puts : ∀ {o o' : Output}, o.Alike o' → ∀ piece,
      (put o' piece).2 = (put o piece).2 ∧ (put o piece).1.Alike (put o' piece).1)
    (consumed : Nat) (rest : Bytes) {o o' : Output} (alike : o.Alike o') :
    (packPieces room put consumed rest o').1 = (packPieces room put consumed rest o).1 ∧
      (packPieces room put consumed rest o).2.Alike (packPieces room put consumed rest o').2 := by
  fun_induction packPieces room put consumed rest o generalizing o' with
  | case1 consumed rest o piece =>
      rename_i none
      have same : rest.take (room o') = piece := by rw [measures alike]
      rw [packPieces, dif_pos (same.trans none)]
      exact ⟨rfl, alike⟩
  | case2 consumed rest o piece some after e =>
      rename_i refused
      have same : rest.take (room o') = piece := by rw [measures alike]
      obtain ⟨answer, alike⟩ := puts alike piece
      rw [refused] at answer alike
      rw [packPieces, dif_neg (same.symm ▸ some), same]
      generalize put o' piece = out at answer alike
      obtain ⟨after', answer'⟩ := out
      cases answer
      exact ⟨rfl, alike⟩
  | case3 consumed rest o piece some after accepted =>
      rename_i ih
      have same : rest.take (room o') = piece := by rw [measures alike]
      obtain ⟨answer, alike⟩ := puts alike piece
      rw [accepted] at answer alike
      rw [packPieces, dif_neg (same.symm ▸ some), same]
      generalize put o' piece = out at answer alike
      obtain ⟨after', answer'⟩ := out
      cases answer
      exact ih alike

end Pieces

namespace FrameEncoder

theorem room_of_alike {o o' : Output} (alike : o.Alike o') : room o' = room o := by
  unfold room Output.fits Output.headroom
  rw [alike.queue, alike.ceiling]

theorem put_of_alike {o o' : Output} (alike : o.Alike o') (payload : Bytes) :
    (put o' payload).2 = (put o payload).2 ∧ (put o payload).1.Alike (put o' payload).1 := by
  obtain ⟨scratch, events, eq⟩ := put_eq o payload
  obtain ⟨scratch', events', eq'⟩ := put_eq o' payload
  rw [eq, eq']
  have alike : Output.Alike { o with scratch, events }
      { o' with scratch := scratch', events := events' } :=
    ⟨alike.queue, alike.ceiling, alike.pushed⟩
  exact alike.offer _

variable (t : FrameEncoder)

/-- A payload for which there is room is put into one more chunk, which is its frame. -/
theorem chunks_put {o : Output} {payload : Bytes} (held : payload ≠ [])
    (le : payload.length ≤ min t.maxFrame (room o)) :
    (put o payload).2 = .ok () ∧ (put o payload).1.chunks = o.chunks ++ [Frame.encode payload] := by
  obtain ⟨after, accepted, _⟩ := t.packs.accepts o payload trivial held le
  obtain ⟨scratch, events, eq⟩ := put_eq o payload
  rw [eq] at accepted ⊢
  exact Output.chunks_of_offer (Frame.encode_ne_nil payload) accepted

/-- A call takes a first part of its input and pushes it as frames. -/
theorem takesPieces_step : Series.TakesPieces t.maxFrame Frame.encode t.step := by
  intro input o
  obtain ⟨payloads, front, each, step, chunks⟩ :=
    packPieces_eq_done (fun o => Nat.min_le_left t.maxFrame (room o)) t.chunks_put 0 input o
  rw [Nat.zero_add] at step
  exact ⟨payloads, front, each, step, chunks⟩

/-- What is in the scratch buffer makes no difference to a call. -/
theorem step_of_alike (input : Bytes) {o o' : Output} (alike : o.Alike o') :
    (t.step input o').1 = (t.step input o).1 ∧ (t.step input o).2.Alike (t.step input o').2 :=
  packPieces_of_alike (fun alike => congrArg (min t.maxFrame) (room_of_alike alike)) put_of_alike
    0 input alike

end FrameEncoder

/-! ## One call after the other -/

namespace Occasion

/-- The occasion with nothing in the scratch buffer. -/
def bare (occasion : Occasion) : Occasion := { occasion with scratch := .empty }

theorem alike_output {occasion other : Occasion} (same : other.bare = occasion.bare) :
    occasion.output.Alike other.output := by
  have queue := congrArg queue same
  have ceiling := congrArg ceiling same
  exact ⟨queue, ceiling, rfl⟩

end Occasion

namespace FrameEncoder

variable (t : FrameEncoder)

/-- Whatever the scratch buffer holds when a call is made, the series comes to the same. -/
theorem series_of_bare (data : Bytes) {occasions others : List Occasion}
    (same : others.map Occasion.bare = occasions.map Occasion.bare) :
    Series.run t.step data others = Series.run t.step data occasions := by
  induction occasions generalizing data others with
  | nil => rw [List.map_eq_nil_iff.1 same]
  | cons occasion later ih =>
      obtain ⟨other, rest, rfl, first, behind⟩ := List.map_eq_cons_iff.1 same
      have given := congrArg Occasion.given first
      change other.given = occasion.given at given
      obtain ⟨answer, alike⟩ :=
        t.step_of_alike (data.take occasion.given) (Occasion.alike_output first)
      obtain ⟨payloads, _, _, step, _⟩ :=
        t.takesPieces_step (data.take occasion.given) occasion.output
      have chunks : (t.step (data.take occasion.given) other.output).2.chunks =
          (t.step (data.take occasion.given) occasion.output).2.chunks :=
        congrArg List.reverse alike.pushed
      rw [Series.run_of_done step, Series.run_of_done (given ▸ answer.trans step), given, chunks,
        ih _ behind]

/-- A decoder whose limit is not lower reads the frames of a series back, however they are cut. -/
theorem feed_frames {payloads : List Bytes} (each : ∀ payload ∈ payloads,
      payload ≠ [] ∧ payload.length ≤ t.maxFrame) {decoder : FrameDecoder}
    (le : t.maxFrame ≤ decoder.maxFrame) (ceiling : Nat) {pieces : List Bytes}
    (cut : pieces.flatten = (payloads.map Frame.encode).flatten) :
    Decoder.feed decoder.step ceiling pieces = some ⟨payloads.flatten, [], none⟩ := by
  have fits (payload : Bytes) (member : payload ∈ payloads) :
      Frame.Fits decoder.maxFrame payload := by
    have short := (each payload member).2
    exact ⟨Nat.le_trans short le, Nat.lt_of_le_of_lt short t.maxFrame_lt⟩
  have nothing : Frame.Ends decoder.maxFrame [] none := Frame.begins_nil _
  have framing := Frame.framing_frames fits []
  rw [List.append_nil, Frame.framing_of_ends nothing, List.append_nil] at framing
  have reading : decoder.read pieces.flatten = ⟨payloads.flatten, [], none⟩ := by
    rw [cut, FrameDecoder.read, framing]
    rfl
  have follows : Decoder.Follows decoder.step ceiling decoder.read :=
    decoder.reads_read.follows (decoder.handles_unpack 0)
  obtain ⟨fed, eq, comes⟩ :=
    follows.feedFrom_of_settles decoder.settles_read decoder.reads_read.nil pieces
  rw [List.nil_append, reading] at comes
  rw [Decoder.feed, eq, comes.eq rfl]

/-- However the input is cut, whatever the queue, the ceiling and the scratch buffer are on each
occasion: every chunk is a single frame, the payloads in a row are the bytes that were consumed, and
a decoder whose limit is not lower reads just these bytes, with nothing left over, however the row
of chunks is cut. The chunks do not depend on the scratch buffer. -/
theorem series_decodes (data : Bytes) (occasions : List Occasion) :
    let series := Series.run t.step data occasions
    series.failure = none ∧ series.consumed ++ series.rest = data ∧
      (∀ chunk ∈ series.chunks, Frame.Single t.maxFrame chunk) ∧
      (series.chunks.map (List.drop Frame.headerLength)).flatten = series.consumed ∧
      (∀ decoder : FrameDecoder, t.maxFrame ≤ decoder.maxFrame → ∀ (ceiling : Nat)
        (pieces : List Bytes), pieces.flatten = series.chunks.flatten →
        Decoder.feed decoder.step ceiling pieces = some ⟨series.consumed, [], none⟩) ∧
      ∀ others : List Occasion, others.map Occasion.bare = occasions.map Occasion.bare →
        Series.run t.step data others = series := by
  obtain ⟨payloads, whole, each, consumed, chunks, failure⟩ :=
    Series.run_eq_pieces t.takesPieces_step data occasions
  dsimp only
  rw [consumed, chunks]
  refine ⟨failure, whole, ?_, ?_, ?_, fun _ => t.series_of_bare data⟩
  · intro chunk member
    obtain ⟨payload, taken, rfl⟩ := List.mem_map.1 member
    obtain ⟨held, short⟩ := each payload taken
    exact Frame.single_encode held short t.maxFrame_lt
  · rw [List.map_map]
    exact congrArg List.flatten (List.map_id payloads)
  · intro decoder le ceiling pieces cut
    exact t.feed_frames each le ceiling cut

end FrameEncoder

/-! ## Three frames -/

namespace Parcels

/-- An encoder of payloads of up to three bytes. -/
def encoder : FrameEncoder := ⟨3, by decide, by decide⟩

def data : Bytes := [1, 2, 3, 4, 5, 6, 7]

/-- More bytes than any frame has. -/
def stale : Bytes := [9, 9, 9, 9, 9, 9, 9, 9]

/-- Four bytes are given with room for all of them, then two with room for a payload of one, then
all that are left, but too much waits in the queue. -/
def occasions (stale : Bytes) : List Occasion :=
  [⟨4, .empty, .ofList stale, 100⟩, ⟨2, .empty, .ofList stale, 5⟩,
    ⟨9, Queue.empty.pushBack (.wrap [8, 8]), .ofList stale, 6⟩]

end Parcels

/-- Five bytes are consumed. What is in the scratch buffer changes nothing. -/
theorem series_decodes_parcels :
    (Series.run Parcels.encoder.step Parcels.data (Parcels.occasions Parcels.stale)).chunks =
        [[0, 0, 0, 3, 1, 2, 3], [0, 0, 0, 1, 4], [0, 0, 0, 1, 5]] ∧
      Decoder.feed (FrameDecoder.mk 4).step 2
        [[0, 0, 0, 3, 1], [2, 3, 0, 0], [0, 1, 4, 0, 0, 0, 1, 5]] =
          some ⟨[1, 2, 3, 4, 5], [], none⟩ ∧
      Series.run Parcels.encoder.step Parcels.data (Parcels.occasions []) =
        Series.run Parcels.encoder.step Parcels.data (Parcels.occasions Parcels.stale) := by
  have comes : Series.run Parcels.encoder.step Parcels.data (Parcels.occasions Parcels.stale) =
      ⟨[1, 2, 3, 4, 5], [[0, 0, 0, 3, 1, 2, 3], [0, 0, 0, 1, 4], [0, 0, 0, 1, 5]], [6, 7],
        none⟩ := by decide +kernel
  obtain ⟨_, _, _, _, decodes, blind⟩ :=
    FrameEncoder.series_decodes Parcels.encoder Parcels.data (Parcels.occasions Parcels.stale)
  refine ⟨congrArg Series.chunks comes, ?_, blind _ rfl⟩
  rw [comes] at decodes
  exact decodes ⟨4⟩ (by decide) 2 _ rfl

end ByteFlow
