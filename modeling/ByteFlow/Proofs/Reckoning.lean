/-
# Reckoning in words

The transforms of the library and their output reckon with lengths: they add up what was consumed,
emitted and queued, and they estimate what a unit will come to before it is put together. Each of
these operations stands here a second time, in a form that gives up as soon as a sum or a product
does not fit a word, or a length does not fit a header. Differences that stop at zero and quotients
always fit.

As long as the input is no longer than a block can be and the queue was counted in words before, the
two forms do the same: nothing is ever given up. What carries this is that more than the ceiling
never waits after a chunk was pushed, unless the queue was empty, and that no chunk is longer than
the longest line that encodes a block.
-/

import ByteFlow.Proofs.Packing
import Mathlib.Data.Option.Basic

namespace ByteFlow

/-- A number that is the result of a sum or a product, if it fits a word. -/
def word? (n : Nat) : Option Nat := if n ≤ unlimited then some n else none

theorem word?_eq {n : Nat} (le : n ≤ unlimited) : word? n = some n := if_pos le

theorem Block.maxSize_le : Block.maxSize ≤ unlimited := by decide

/-! ## What is reckoned -/

/-- Appends a segment and counts its bytes. -/
def Queue.pushBack? (q : Queue) (segment : Ring) : Option Queue := do
  let _ ← word? (q.bytes + segment.used)
  return q.pushBack segment

namespace Output

/-- Pushes a chunk, which is counted in the queue and as emitted. -/
def push? (o : Output) (chunk : Bytes) : Option (Except Error Output) :=
  if chunk.isEmpty then some (.ok o)
  else if o.fits chunk.length then do
    let queue ← o.queue.pushBack? (.wrap chunk)
    let _ ← word? (o.emitted + chunk.length)
    return .ok { o with queue, pushed := chunk :: o.pushed }
  else some (.error .ceiling)

/-- Pushes a chunk, and gives back the output in any case. -/
def offer? (o : Output) (chunk : Bytes) : Option (Output × Except Error Unit) := do
  match ← o.push? chunk with
  | .ok o => return (o, .ok ())
  | .error e => return (o, .error e)

/-- Pushes a copy of the first bytes of the scratch buffer. -/
def pushScratch? (o : Output) (length : Nat) : Option (Output × Except Error Unit) :=
  let o := o.reserve length
  o.offer? (o.scratch.slice 0 length).toList

end Output

/-- Packs piece by piece, and adds up what was consumed. -/
def packPieces? (room? : Output → Option Nat)
    (put? : Output → Bytes → Option (Output × Except Error Unit)) (consumed : Nat) (rest : Bytes)
    (o : Output) : Option (Step × Output) := do
  let room ← room? o
  let piece := rest.take room
  if _h : piece = [] then return (.done consumed, o)
  else
    match ← put? o piece with
    | (o, .error e) => return (.errored e.toCause, o)
    | (o, .ok ()) =>
      packPieces? room? put? (← word? (consumed + piece.length)) (rest.drop piece.length) o
termination_by rest.length
decreasing_by
  have : 0 < piece.length := List.length_pos_iff.2 _h
  have : piece.length ≤ rest.length := List.length_take_le' _ _
  change (rest.drop piece.length).length < rest.length
  rw [List.length_drop]
  omega

/-- One call of a copier. -/
def Identity.step? (t : Identity) (input : Bytes) (o : Output) : Option (Step × Output) :=
  packPieces? (fun o => some (min t.chunkSize o.headroom)) Output.offer? 0 input o

/-- How long a frame is as a whole, if its header is there. -/
def Frame.extent? : Bytes → Option Nat
  | a :: b :: c :: d :: _ => word? (headerLength + headerValue a b c d)
  | _ => some 0

namespace FrameDecoder

/-- Unpacks frames. -/
def unpack? (t : FrameDecoder) (consumed : Nat) (rest : Bytes) (o : Output) :
    Option (Step × Output) :=
  match _h : Frame.front t.maxFrame rest with
  | .none => some (.done consumed, o)
  | .incomplete => (Frame.extent? rest).map fun _ => (.underflow consumed, o)
  | .tooLong length => some (.errored (.frameTooLong length t.maxFrame), o)
  | .whole payload next => do
    let length ← word? (Frame.headerLength + payload.length)
    if o.fits payload.length then
      match ← o.push? payload with
      | .error e => return (.errored e.toCause, o)
      | .ok o => t.unpack? (← word? (consumed + length)) next o
    else return (.done consumed, o)
termination_by rest.length
decreasing_by exact Frame.length_rest_lt_of_front _h

/-- One call of the transform. -/
def step? (t : FrameDecoder) (input : Bytes) (o : Output) : Option (Step × Output) :=
  t.unpack? 0 input o

end FrameDecoder

namespace FrameEncoder

/-- How long a payload may be for its frame to be accepted. -/
def room? (o : Output) : Option Nat := do
  if o.headroom - Frame.headerLength = 0 then
    return if o.fits (← word? (Frame.headerLength + 1)) then 1 else 0
  else return o.headroom - Frame.headerLength

/-- Pushes a payload as a frame, whose header has to have room for its length. -/
def put? (o : Output) (payload : Bytes) : Option (Output × Except Error Unit) := do
  let length ← word? (Frame.headerLength + payload.length)
  guard (payload.length < Frame.lengthLimit)
  ((o.reserve length).overwrite (Frame.encode payload)).pushScratch? length

/-- One call of the transform. -/
def step? (t : FrameEncoder) (input : Bytes) (o : Output) : Option (Step × Output) :=
  packPieces? (fun o => (room? o).map (min t.maxFrame)) put? 0 input o

end FrameEncoder

/-- The length of the line of that many bytes. -/
def Line.encodedLength? (length : Nat) : Option Nat := do
  let rounded ← word? (length + 2)
  let symbols ← word? (rounded / 3 * 4)
  word? (symbols + 1)

namespace LineDecoder

/-- Decodes lines, each of which is first estimated. -/
def unpack? (t : LineDecoder) (consumed : Nat) (rest : Bytes) (o : Output) :
    Option (Step × Output) :=
  match _h : Line.front rest with
  | .none => some (.done consumed, o)
  | .unended =>
    if t.maxLine < rest.length then some (.errored (.lineTooLong t.maxLine), o)
    else some (.underflow consumed, o)
  | .ended ended next => do
    let line := Line.trim ended
    if t.maxLine < line.length then return (.errored (.lineTooLong t.maxLine), o)
    else if line = [] then
      t.unpack? (← word? (consumed + (← word? (ended.length + 1)))) next o
    else if o.fits (← word? (line.length / 4 * 3)) then
      match Base64.decode line with
      | none => return (.errored .invalidBase64, o)
      | some chunk =>
        match ← o.push? chunk with
        | .error e => return (.errored e.toCause, o)
        | .ok o => t.unpack? (← word? (consumed + (← word? (ended.length + 1)))) next o
    else return (.done consumed, o)
termination_by rest.length
decreasing_by
  all_goals
    have shorter := Line.length_of_front_eq_ended _h
    omega

/-- One call of the transform. -/
def step? (t : LineDecoder) (input : Bytes) (o : Output) : Option (Step × Output) :=
  t.unpack? 0 input o

end LineDecoder

namespace LineEncoder

/-- How much input a line may hold to be accepted. -/
def room? (o : Output) : Option Nat := do
  let room ← word? ((o.headroom - 1) / 4 * 3)
  if room = 0 then return if o.fits (← Line.encodedLength? 3) then 3 else 0
  else return room

/-- Pushes a chunk as a line, whose length is known beforehand. -/
def put? (o : Output) (chunk : Bytes) : Option (Output × Except Error Unit) := do
  let _ ← Line.encodedLength? chunk.length
  o.offer? (Line.encode chunk)

/-- One call of the transform. -/
def step? (t : LineEncoder) (input : Bytes) (o : Output) : Option (Step × Output) :=
  packPieces? (fun o => (room? o).map (min t.lineInput)) put? 0 input o

end LineEncoder

/-- One call of the chosen transform, reckoned in words. -/
def Codec.step? (t : Codec) (input : Bytes) (o : Output) : Option (Step × Output) :=
  match t with
  | .identity t => t.step? input o
  | .frameDecoder t => t.step? input o
  | .frameEncoder t => t.step? input o
  | .lineDecoder t => t.step? input o
  | .lineEncoder t => t.step? input o

/-! ## The output -/

namespace Output

variable {o : Output}

/-- The numbers of an output fit words. What was emitted waits in the queue. -/
structure Reckons (o : Output) : Prop where
  valid : o.queue.Valid
  ceiling : o.ceiling ≤ unlimited
  bytes : o.queue.bytes ≤ unlimited
  emitted : o.emitted ≤ o.queue.bytes

theorem reckons_new {queue : Queue} {ceiling : Nat} (valid : queue.Valid)
    (bytes : queue.bytes ≤ unlimited) (word : ceiling ≤ unlimited) (scratch : Block) :
    (Output.new queue scratch ceiling).Reckons :=
  ⟨valid, word, bytes, Nat.zero_le _⟩

/-- The scratch buffer, and what is on record about it, are not reckoned with. -/
theorem Reckons.of_scratch (h : o.Reckons) (scratch : Block) (events : List Event) :
    Reckons { o with scratch, events } :=
  ⟨h.valid, h.ceiling, h.bytes, h.emitted⟩

theorem headroom_le (h : o.Reckons) : o.headroom ≤ unlimited :=
  Nat.le_trans (Nat.sub_le _ _) h.ceiling

/-- With a chunk that fits, what waits still fits a word. -/
theorem Reckons.add_le (h : o.Reckons) {length : Nat} (word : length ≤ unlimited)
    (room : o.fits length) : o.queue.bytes + length ≤ unlimited := by
  have top := h.ceiling
  unfold fits headroom at room
  rcases Bool.or_eq_true_iff.1 room with empty | below
  · rw [(Queue.isEmpty_iff_bytes_eq_zero h.valid).1 empty, Nat.zero_add]
    exact word
  · have below := of_decide_eq_true below
    have waiting := h.bytes
    omega

theorem Reckons.push?_eq (h : o.Reckons) {chunk : Bytes} (word : chunk.length ≤ unlimited) :
    o.push? chunk = some (o.push chunk) ∧ ∀ after, o.push chunk = .ok after → after.Reckons := by
  unfold push? push
  by_cases none : chunk.isEmpty
  · rw [if_pos none, if_pos none]
    exact ⟨rfl, fun _ same => Except.ok.inj same ▸ h⟩
  · rw [if_neg none, if_neg none]
    by_cases room : o.fits chunk.length
    · have sum := h.add_le word room
      have emitted := h.emitted
      have counted : (o.queue.pushBack (.wrap chunk)).bytes = o.queue.bytes + chunk.length :=
        Queue.bytes_pushBack _ _
      have queued : o.queue.pushBack? (.wrap chunk) = some (o.queue.pushBack (.wrap chunk)) := by
        change (word? (o.queue.bytes + chunk.length)).bind _ = _
        rw [word?_eq sum]
        rfl
      rw [if_pos room, if_pos room, queued, word?_eq (by omega)]
      refine ⟨rfl, fun after same => ?_⟩
      rw [← Except.ok.inj same]
      refine ⟨h.valid.pushBack (Ring.valid_wrap chunk), h.ceiling, ?_, ?_⟩
      · rw [counted]
        exact sum
      · change chunk.length + o.emitted ≤ (o.queue.pushBack (.wrap chunk)).bytes
        omega
    · rw [if_neg room, if_neg room]
      exact ⟨rfl, nofun⟩

theorem Reckons.offer?_eq (h : o.Reckons) {chunk : Bytes} (word : chunk.length ≤ unlimited) :
    o.offer? chunk = some (o.offer chunk) ∧ (o.offer chunk).1.Reckons := by
  obtain ⟨pushed, kept⟩ := h.push?_eq word
  unfold offer? offer
  rw [pushed]
  cases eq : o.push chunk with
  | error e => exact ⟨rfl, h⟩
  | ok after => exact ⟨rfl, kept after eq⟩

theorem Reckons.reserve (h : o.Reckons) (length : Nat) : (o.reserve length).Reckons := by
  obtain ⟨scratch, events, eq, _⟩ := o.reserve_eq length
  rw [eq]
  exact h.of_scratch scratch events

theorem Reckons.overwrite (h : o.Reckons) (data : Bytes) : (o.overwrite data).Reckons :=
  h.of_scratch _ o.events

theorem Reckons.pushScratch?_eq (h : o.Reckons) {length : Nat} (word : length ≤ unlimited) :
    o.pushScratch? length = some (o.pushScratch length) ∧ (o.pushScratch length).1.Reckons := by
  refine (h.reserve length).offer?_eq (Nat.le_trans ?_ word)
  rw [Block.toList_slice]
  exact List.length_take_le _ _

end Output

/-! ## Packing -/

/-- Packing keeps to words if measuring the room and putting a piece do. -/
theorem packPieces?_eq {room? : Output → Option Nat}
    {put? : Output → Bytes → Option (Output × Except Error Unit)} {room : Output → Nat}
    {put : Output → Bytes → Output × Except Error Unit}
    (rooms : ∀ {o : Output}, o.Reckons → room? o = some (room o))
    (puts : ∀ {o : Output} {piece : Bytes}, o.Reckons → piece.length ≤ room o →
      piece.length ≤ Block.maxSize → put? o piece = some (put o piece) ∧ (put o piece).1.Reckons)
    {consumed : Nat} {rest : Bytes} {o : Output} (h : o.Reckons)
    (le : consumed + rest.length ≤ Block.maxSize) :
    packPieces? room? put? consumed rest o = some (packPieces room put consumed rest o) := by
  fun_induction packPieces room put consumed rest o with
  | case1 consumed rest o piece none =>
      rw [packPieces?, rooms h]
      exact dif_pos none
  | case2 consumed rest o piece some after e refused =>
      obtain ⟨same, _⟩ := puts h (List.length_take_le _ _)
        (Nat.le_trans (List.length_take_le' _ _) (Nat.le_trans (Nat.le_add_left _ _) le))
      rw [packPieces?, rooms h]
      change dite _ _ _ = _
      rw [dif_neg some]
      change (put? o piece).bind _ = _
      rw [same, refused]
      rfl
  | case3 consumed rest o piece some after accepted ih =>
      have inside : piece.length ≤ rest.length := List.length_take_le' _ _
      obtain ⟨same, kept⟩ := puts h (List.length_take_le _ _)
        (Nat.le_trans inside (Nat.le_trans (Nat.le_add_left _ _) le))
      have sum : consumed + piece.length ≤ unlimited :=
        Nat.le_trans (Nat.le_trans (Nat.add_le_add_left inside _) le) Block.maxSize_le
      rw [accepted] at kept
      rw [packPieces?, rooms h]
      change dite _ _ _ = _
      rw [dif_neg some]
      change (put? o piece).bind _ = _
      rw [same, accepted]
      change (word? (consumed + piece.length)).bind _ = _
      rw [word?_eq sum]
      refine ih kept ?_
      rw [List.length_drop]
      omega

theorem Identity.step?_eq (t : Identity) {input : Bytes} {o : Output} (h : o.Reckons)
    (le : input.length ≤ Block.maxSize) : t.step? input o = some (t.step input o) := by
  have sum : 0 + input.length ≤ Block.maxSize := (Nat.zero_add _).symm ▸ le
  refine packPieces?_eq (fun _ => rfl) (fun h _ size => ?_) h sum
  exact h.offer?_eq (Nat.le_trans size Block.maxSize_le)

namespace FrameEncoder

theorem room?_eq (o : Output) : room? o = some (room o) := by
  unfold room? room
  split
  · rw [word?_eq (by decide)]
    rfl
  · rfl

theorem put?_eq {o : Output} (h : o.Reckons) {payload : Bytes}
    (short : payload.length < Frame.lengthLimit) :
    put? o payload = some (put o payload) ∧ (put o payload).1.Reckons := by
  have word : Frame.headerLength + payload.length ≤ unlimited := by
    unfold Frame.lengthLimit at short
    unfold Frame.headerLength unlimited
    omega
  have pushed := ((h.reserve (Frame.encode payload).length).overwrite
    (Frame.encode payload)).pushScratch?_eq ((Frame.length_encode payload).symm ▸ word)
  unfold put?
  rw [word?_eq word, guard, if_pos short, ← Frame.length_encode]
  simp only [Option.bind_eq_bind, Option.bind_some, Option.pure_def]
  exact pushed

theorem step?_eq (t : FrameEncoder) {input : Bytes} {o : Output} (h : o.Reckons)
    (le : input.length ≤ Block.maxSize) : t.step? input o = some (t.step input o) := by
  refine packPieces?_eq (fun _ => ?_) (fun h inside _ => ?_) h ((Nat.zero_add _).symm ▸ le)
  · rw [room?_eq]
    rfl
  · exact put?_eq h
      (Nat.lt_of_le_of_lt (Nat.le_trans inside (Nat.min_le_left _ _)) t.maxFrame_lt)

end FrameEncoder

/-- The line of a block is longer than a block may be, but not longer than a word can tell. -/
theorem Line.encodedLength?_eq {length : Nat} (le : length ≤ Block.maxSize) :
    encodedLength? length = some (encodedLength length) ∧ encodedLength length ≤ unlimited := by
  have bound : (length + 2) / 3 * 4 + 1 ≤ unlimited := by
    unfold Block.maxSize at le
    unfold unlimited
    omega
  refine ⟨?_, bound⟩
  unfold encodedLength?
  rw [word?_eq (by unfold Block.maxSize at le; unfold unlimited; omega)]
  change (word? ((length + 2) / 3 * 4)).bind _ = _
  rw [word?_eq (Nat.le_of_succ_le bound)]
  exact word?_eq bound

namespace LineEncoder

theorem room?_eq {o : Output} (h : o.Reckons) : room? o = some (room o) := by
  have top := Output.headroom_le h
  unfold room? room
  rw [word?_eq (by omega)]
  change ite _ _ _ = _
  split
  · rw [(Line.encodedLength?_eq (by decide)).1]
    rfl
  · rfl

theorem put?_eq {o : Output} (h : o.Reckons) {chunk : Bytes} (le : chunk.length ≤ Block.maxSize) :
    put? o chunk = some (put o chunk) ∧ (put o chunk).1.Reckons := by
  obtain ⟨same, word⟩ := Line.encodedLength?_eq le
  unfold put?
  rw [same]
  exact h.offer?_eq ((Line.length_encode chunk).symm ▸ word)

theorem step?_eq (t : LineEncoder) {input : Bytes} {o : Output} (h : o.Reckons)
    (le : input.length ≤ Block.maxSize) : t.step? input o = some (t.step input o) := by
  refine packPieces?_eq (fun h => ?_) (fun h _ size => put?_eq h size) h
    ((Nat.zero_add _).symm ▸ le)
  rw [room?_eq h]
  rfl

end LineEncoder

/-! ## Unpacking -/

theorem Frame.length_of_front_eq_whole {max : Nat} {input payload rest : Bytes}
    (whole : front max input = .whole payload rest) :
    input.length = headerLength + payload.length + rest.length := by
  have eq := eq_front max input
  rw [whole] at eq
  rw [eq.1, List.length_append, length_encode]

/-- What a header announces never comes near the end of a word. -/
theorem Frame.isSome_extent? (input : Bytes) : (extent? input).isSome := by
  unfold extent?
  split
  · rename_i a b c d _
    have lt := headerValue_lt a b c d
    unfold lengthLimit at lt
    rw [word?_eq (by unfold headerLength unlimited; omega)]
    rfl
  · rfl

namespace FrameDecoder

theorem unpack?_eq (t : FrameDecoder) {consumed : Nat} {rest : Bytes} {o : Output}
    (h : o.Reckons) (le : consumed + rest.length ≤ Block.maxSize) :
    t.unpack? consumed rest o = some (t.unpack consumed rest o) := by
  have word := Block.maxSize_le
  fun_induction unpack t consumed rest o with
  | case2 consumed rest o front =>
      obtain ⟨_, announced⟩ := Option.isSome_iff_exists.1 (Frame.isSome_extent? rest)
      grind [unpack?]
  | case4 consumed rest o payload next front room e refused =>
      obtain ⟨_, accepted, _⟩ := Output.push_of_fits room
      rw [accepted] at refused
      cases refused
  | case5 consumed rest o payload next front room pushed accepted ih =>
      have length := Frame.length_of_front_eq_whole front
      have short : payload.length ≤ unlimited := by omega
      obtain ⟨same, kept⟩ := h.push?_eq short
      have others := ih (kept pushed accepted) (by omega)
      rw [unpack?]
      split
      all_goals
        rename_i front'
        rw [front] at front'
        cases front'
      rw [word?_eq (by omega), Option.bind_eq_bind, Option.bind_some, if_pos room, same, accepted,
        Option.bind_eq_bind, Option.bind_some]
      dsimp only
      rw [word?_eq (by omega)]
      exact others
  | case6 consumed rest o payload next front full =>
      have length := Frame.length_of_front_eq_whole front
      have extent := word?_eq (show Frame.headerLength + payload.length ≤ unlimited by omega)
      grind [unpack?]
  | _ => grind [unpack?]

theorem step?_eq (t : FrameDecoder) {input : Bytes} {o : Output} (h : o.Reckons)
    (le : input.length ≤ Block.maxSize) : t.step? input o = some (t.step input o) :=
  t.unpack?_eq h ((Nat.zero_add _).symm ▸ le)

end FrameDecoder

namespace LineDecoder

/-- What is estimated of a line, and how long it is with its line feed, fits a word. -/
theorem reckons_of_ended {consumed : Nat} {rest line next : Bytes}
    (ended : Line.front rest = .ended line next)
    (le : consumed + rest.length ≤ Block.maxSize) :
    consumed + (line.length + 1) + next.length ≤ Block.maxSize ∧
      (Line.trim line).length / 4 * 3 ≤ unlimited := by
  have length := Line.length_of_front_eq_ended ended
  have trimmed := Line.length_trim_le line
  have word := Block.maxSize_le
  constructor <;> omega

theorem unpack?_eq (t : LineDecoder) {consumed : Nat} {rest : Bytes} {o : Output}
    (h : o.Reckons) (le : consumed + rest.length ≤ Block.maxSize) :
    t.unpack? consumed rest o = some (t.unpack consumed rest o) := by
  have word := Block.maxSize_le
  fun_induction unpack t consumed rest o with
  | case5 consumed rest o line next ended trimmed short blank ih =>
      obtain ⟨within, _⟩ := reckons_of_ended ended le
      have others := ih h within
      have extent := word?_eq (show line.length + 1 ≤ unlimited by omega)
      have sum := word?_eq (show consumed + (line.length + 1) ≤ unlimited by omega)
      grind [unpack?]
  | case6 consumed rest o line next ended trimmed short some room undecoded =>
      have estimate := word?_eq (reckons_of_ended ended le).2
      grind [unpack?]
  | case7 consumed rest o line next ended trimmed short some room chunk decoded e refused =>
      obtain ⟨_, accepted, _⟩ :=
        Output.push_of_fits (Output.fits_of_le room (Base64.length_decode_le decoded))
      rw [accepted] at refused
      cases refused
  | case8 consumed rest o line next ended trimmed short some room chunk decoded pushed accepted
      ih =>
      obtain ⟨within, estimated⟩ := reckons_of_ended ended le
      obtain ⟨same, kept⟩ := h.push?_eq (Nat.le_trans (Base64.length_decode_le decoded) estimated)
      have others := ih (kept pushed accepted) within
      rw [unpack?]
      split
      all_goals
        rename_i ended'
        rw [ended] at ended'
        cases ended'
      rw [if_neg short, if_neg some, word?_eq estimated, Option.bind_eq_bind, Option.bind_some,
        if_pos room, decoded]
      dsimp only
      rw [same, accepted, Option.bind_eq_bind, Option.bind_some]
      dsimp only
      rw [word?_eq (by omega), Option.bind_some, word?_eq (by omega)]
      exact others
  | case9 consumed rest o line next ended trimmed short some full =>
      have estimate := word?_eq (reckons_of_ended ended le).2
      grind [unpack?]
  | _ => grind [unpack?]

theorem step?_eq (t : LineDecoder) {input : Bytes} {o : Output} (h : o.Reckons)
    (le : input.length ≤ Block.maxSize) : t.step? input o = some (t.step input o) :=
  t.unpack?_eq h ((Nat.zero_add _).symm ▸ le)

end LineDecoder

/-- Whatever the library's transforms reckon with fits a word. -/
theorem Codec.step?_eq (t : Codec) {input : Bytes} {o : Output} (h : o.Reckons)
    (le : input.length ≤ Block.maxSize) : t.step? input o = some (t.step input o) := by
  cases t with
  | identity t => exact t.step?_eq h le
  | frameDecoder t => exact t.step?_eq h le
  | frameEncoder t => exact t.step?_eq h le
  | lineDecoder t => exact t.step?_eq h le
  | lineEncoder t => exact t.step?_eq h le

end ByteFlow
