/-
# What transforms promise

A pipe relies on its transform. It takes a count of more bytes than there were for a failure, and
an error for the end of the stream; it calls the transform again and again while the queue is below
its ceiling, and hopes that something happens whenever nothing waits any more. The transforms of the
library estimate what will fit, each by a formula of its own, and the output has the last word; so
what they promise is that the estimates and the output never disagree.
-/

import ByteFlow.Proofs.Backpressure
import ByteFlow.Proofs.Copying
import ByteFlow.Proofs.Reckoning

namespace ByteFlow

/-! ## The queue -/

namespace Output

theorem Uses.valid {o used : Output} (h : o.Uses used) (valid : o.queue.Valid) :
    used.queue.Valid := by
  induction h with
  | refl => exact valid
  | push _ accepted ih =>
      rcases push_eq_ok accepted with ⟨_, rfl⟩ | ⟨_, rfl⟩
      · exact ih
      · exact ih.pushBack (Ring.valid_wrap _)
  | scratch _ _ ih => exact ih
  | note _ _ ih => exact ih

/-- At most the ceiling waits, or a single segment. -/
def Bounded (o : Output) : Prop := o.queue.bytes ≤ o.ceiling ∨ o.queue.length = 1

/-- However an output is used, it stays bounded: nothing ever joins a single segment that is larger
than the ceiling. -/
theorem Bounded.uses {o used : Output} (valid : o.queue.Valid) (bounded : o.Bounded)
    (uses : o.Uses used) : used.Bounded := by
  induction uses with
  | refl => exact bounded
  | push before accepted ih =>
      rcases push_eq_ok accepted with ⟨_, rfl⟩ | ⟨held, rfl⟩
      · exact ih
      · have waiting := waiting_of_push (before.valid valid) held accepted
        rw [← Queue.length_eq_length_segments] at waiting
        exact waiting.imp_right And.left
  | scratch _ _ ih => exact ih
  | note _ _ ih => exact ih

end Output

/-! ## The input -/

namespace Format.Handles

variable {F : Format} {input : Bytes} {o after : Output} {step : Step}

/-- No more bytes are consumed than were given. -/
theorem consumed_le (h : F.Handles 0 input o (step, after)) : step.consumed ≤ input.length := by
  obtain ⟨used, rest, _, rfl, _, _, stops⟩ := h.split
  rw [List.length_append]
  cases step with
  | done total =>
      obtain ⟨rfl, _⟩ := stops
      change 0 + used.length ≤ _
      omega
  | underflow total =>
      obtain ⟨rfl, _⟩ := stops
      change 0 + used.length ≤ _
      omega
  | errored cause => exact Nat.zero_le _

/-- Where nothing waits, something is consumed, unless the format finds that what is there is
incomplete or malformed. -/
theorem advances (h : F.Handles 0 input o (step, after)) (empty : o.queue.isEmpty)
    (held : input ≠ []) :
    1 ≤ step.consumed ∨ (step.isUnderflow ∧ ∃ rest, F.incomplete rest) ∨
      ∃ cause, step = .errored cause ∧ ∃ rest, F.rejected rest cause := by
  obtain ⟨used, rest, _, rfl, _, _, stops⟩ := h.split
  cases step with
  | done total =>
      obtain ⟨rfl, stops⟩ := stops
      left
      by_cases none : used = []
      · rw [none, List.nil_append] at held
        rw [(stops held).2 none] at empty
        cases empty
      · have some := List.length_pos_iff.2 none
        exact (Nat.zero_add used.length).symm ▸ some
  | underflow total => exact .inr (.inl ⟨rfl, rest, stops.2⟩)
  | errored cause => exact .inr (.inr ⟨cause, rfl, rest, stops⟩)

end Format.Handles

/-! ## The transforms of the library -/

/-- A line that is ended is rejected because it is too long, or is no base64. -/
theorem LineDecoder.judge_eq_error {t : LineDecoder} {line : Bytes} {cause : Cause}
    (judged : t.judge line = .error cause) :
    cause = .lineTooLong t.maxLine ∨ cause = .invalidBase64 := by
  unfold judge at judged
  split at judged
  · exact .inl (Except.error.inj judged).symm
  · split at judged
    · exact .inr (Except.error.inj judged).symm
    · cases judged

namespace Codec

/-- The units of a transform. -/
def format : Codec → Format
  | .identity t => t.format
  | .frameDecoder t => t.format
  | .frameEncoder t => t.format
  | .lineDecoder t => t.format
  | .lineEncoder t => t.format

/-- Whether the transform takes a format apart, so that its input may be incomplete or malformed. -/
def isDecoder : Codec → Bool
  | .frameDecoder _ | .lineDecoder _ => true
  | _ => false

/-- What a transform may object to: a decoder to a unit that is too long, or is no base64. -/
def Objects : Codec → Cause → Prop
  | .frameDecoder t, cause =>
      ∃ length, t.maxFrame < length ∧ cause = .frameTooLong length t.maxFrame
  | .lineDecoder t, cause => cause = .lineTooLong t.maxLine ∨ cause = .invalidBase64
  | _, _ => False

theorem handles_step (t : Codec) (input : Bytes) {o : Output} (valid : o.queue.Valid)
    (some : 0 < o.ceiling) : t.format.Handles 0 input o (t.step input o) := by
  cases t with
  | identity t => exact t.packs_of_valid.handles 0 input ⟨valid, some⟩
  | frameDecoder t => exact t.handles_unpack 0 input o
  | frameEncoder t => exact t.packs.handles 0 input trivial
  | lineDecoder t => exact t.handles_unpack 0 input o
  | lineEncoder t => exact t.packs.handles 0 input trivial

theorem Objects.isDecoder {t : Codec} {cause : Cause} (objects : t.Objects cause) :
    t.isDecoder := by
  cases t with
  | identity t => exact objects.elim
  | frameDecoder t => rfl
  | frameEncoder t => exact objects.elim
  | lineDecoder t => rfl
  | lineEncoder t => exact objects.elim

theorem isDecoder_of_incomplete {t : Codec} {rest : Bytes} (incomplete : t.format.incomplete rest) :
    t.isDecoder := by
  cases t with
  | identity t => exact incomplete.elim
  | frameDecoder t => rfl
  | frameEncoder t => exact incomplete.elim
  | lineDecoder t => rfl
  | lineEncoder t => exact incomplete.elim

/-- What a format rejects is malformed, for a reason of that format. -/
theorem objects_of_rejected {t : Codec} {rest : Bytes} {cause : Cause}
    (rejected : t.format.rejected rest cause) : t.Objects cause := by
  cases t with
  | identity t => exact rejected.elim
  | frameDecoder t =>
      obtain ⟨length, exceeds, rfl⟩ := rejected
      exact ⟨length, exceeds.1, rfl⟩
  | frameEncoder t => exact rejected.elim
  | lineDecoder t =>
      simp only [format, LineDecoder.format] at rejected
      split at rejected
      · exact rejected.elim
      · exact .inl rejected.2
      · exact LineDecoder.judge_eq_error rejected
  | lineEncoder t => exact rejected.elim

/-- The ceiling of the output is no reason for a format to reject anything. -/
theorem Objects.ne_ceiling {t : Codec} {cause : Cause} (objects : t.Objects cause) :
    cause ≠ Error.ceiling.toCause := by
  cases t with
  | identity t => exact objects.elim
  | frameDecoder t =>
      obtain ⟨length, _, rfl⟩ := objects
      exact nofun
  | frameEncoder t => exact objects.elim
  | lineDecoder t =>
      rcases objects with rfl | rfl
      · exact nofun
      · exact nofun
  | lineEncoder t => exact objects.elim

/-- Whatever the input, the ceiling and the queue are: a call of a transform reckons in words, it
consumes no more than it was given, it errs only if it objects to its input and never because a
chunk was refused, it leaves at most the ceiling or a single segment waiting if that was so before,
and where nothing waits it consumes something of what it was given, unless it is a decoder that
finds its input incomplete or malformed. -/
theorem keeps_contract (t : Codec) {input : Bytes} {queue : Queue} (scratch : Block) {ceiling : Nat}
    (addressable : input.length ≤ Block.maxSize) (valid : queue.Valid)
    (counted : queue.bytes ≤ unlimited) (some : 0 < ceiling) (word : ceiling ≤ unlimited) :
    let o := Output.new queue scratch ceiling
    let out := t.step input o
    t.step? input o = .some out ∧
      out.1.consumed ≤ input.length ∧
      (∀ cause, out.1 = .errored cause → t.Objects cause ∧ cause ≠ Error.ceiling.toCause) ∧
      (queue.bytes ≤ ceiling ∨ queue.length = 1 →
        out.2.queue.bytes ≤ ceiling ∨ out.2.queue.length = 1) ∧
      (queue.isEmpty → input ≠ [] →
        1 ≤ out.1.consumed ∨
          t.isDecoder ∧ (out.1.isUnderflow ∨ ∃ cause, out.1 = .errored cause)) := by
  intro o out
  have uses : o.Uses out.2 := (Transform.Candid.uses t input o).uses
  have handles : t.format.Handles 0 input o (out.1, out.2) := t.handles_step input valid some
  refine ⟨t.step?_eq (Output.reckons_new valid counted word scratch) addressable,
    handles.consumed_le, ?_, ?_, ?_⟩
  · intro cause errored
    rw [errored] at handles
    obtain ⟨_, _, _, _, _, _, rejected⟩ := handles.split
    have objects := objects_of_rejected rejected
    exact ⟨objects, objects.ne_ceiling⟩
  · intro bounded
    have bounded' : out.2.Bounded := Output.Bounded.uses (o := o) valid bounded uses
    rw [Output.Bounded, Output.ceiling_of_uses uses] at bounded'
    exact bounded'
  · intro empty held
    rcases handles.advances empty held with some | ⟨underflow, _, incomplete⟩ |
      ⟨cause, errored, _, rejected⟩
    · exact .inl some
    · exact .inr ⟨isDecoder_of_incomplete incomplete, .inl underflow⟩
    · exact .inr ⟨(objects_of_rejected rejected).isDecoder, .inr ⟨cause, errored⟩⟩

end Codec

/-! ## Narrow ceilings -/

namespace Narrows

/-- An encoder of four bytes to a line, which writes nine for them and five for any fewer. -/
def encoder : Codec := .lineEncoder ⟨4, by decide⟩

/-- A decoder of frames with payloads of at most two bytes. -/
def decoder : Codec := .frameDecoder ⟨2⟩

/-- Three bytes of a ring that wraps are waiting. -/
def queue : Queue := Queue.empty.pushBack (((Ring.wrap [0, 0, 1, 2]).discard 2).store [3]).1

theorem valid_queue : queue.Valid :=
  Queue.valid_empty.pushBack (((Ring.valid_wrap _).discard (by decide)).store [3])

end Narrows

/-- Below a ceiling of one byte an encoder writes a line that is longer, as nothing waits. Below a
ceiling of two a decoder adds nothing to a segment of three. -/
theorem Codec.keeps_contract_narrows :
    let o := Output.new .empty .empty 1
    let out := Narrows.encoder.step [65, 66, 67, 68, 69] o
    let o' := Output.new Narrows.queue .empty 2
    let out' := Narrows.decoder.step [0, 0, 0, 1, 9] o'
    Narrows.encoder.step? [65, 66, 67, 68, 69] o = some out ∧ 1 ≤ out.1.consumed ∧
      (out.2.queue.bytes ≤ 1 ∨ out.2.queue.length = 1) ∧
      Narrows.decoder.step? [0, 0, 0, 1, 9] o' = some out' ∧
      (out'.2.queue.bytes ≤ 2 ∨ out'.2.queue.length = 1) := by
  intro o out o' out'
  have addressable : ([65, 66, 67, 68, 69] : Bytes).length ≤ Block.maxSize := by decide
  have addressable' : ([0, 0, 0, 1, 9] : Bytes).length ≤ Block.maxSize := by decide
  obtain ⟨reckoned, _, _, bounded, advances⟩ := Codec.keeps_contract Narrows.encoder .empty
    addressable Queue.valid_empty (by decide) Nat.one_pos (by decide)
  obtain ⟨reckoned', _, _, bounded', _⟩ := Codec.keeps_contract Narrows.decoder .empty
    addressable' Narrows.valid_queue (by decide) Nat.two_pos (by decide)
  have some := (advances rfl (List.cons_ne_nil _ _)).resolve_right fun decoder =>
    Bool.false_ne_true decoder.1
  exact ⟨reckoned, some, bounded (.inl (Nat.zero_le 1)), reckoned', bounded' (.inr rfl)⟩

end ByteFlow
