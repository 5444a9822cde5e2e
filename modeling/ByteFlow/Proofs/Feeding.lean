/-
# Feeding a stream to a decoder

A stream that arrives in pieces is fed to a decoder through a buffer. Each piece joins the buffer,
and the decoder is called on all of the buffer until it asks for more, errs, or nothing is left;
what a call has consumed leaves the buffer, and its output is taken away before the next call.

How a stream should be decoded is said by a reader, which is given all of it and knows neither
pieces nor calls. A decoder that `Follows` its reader comes to what the reader says, in however many
calls.
-/

import ByteFlow.Journal
import ByteFlow.Output

namespace ByteFlow

/-- What feeding comes to. -/
structure Fed where
  /-- The bytes that were pushed, in order. -/
  pushed : Bytes
  /-- The bytes of the stream that were not consumed. -/
  tail : Bytes
  /-- Why the decoder erred, if it did. -/
  failure : Option Cause
deriving DecidableEq, Repr

namespace Fed

/-- What feeding comes to if something was pushed before. -/
def after (fed : Fed) (before : Bytes) : Fed := { fed with pushed := before ++ fed.pushed }

/-- What feeding comes to if more bytes were not fed at all. -/
def leaving (fed : Fed) (more : Bytes) : Fed := { fed with tail := fed.tail ++ more }

theorem after_after (fed : Fed) (first second : Bytes) :
    (fed.after second).after first = fed.after (first ++ second) := by
  unfold after
  rw [List.append_assoc]

/-- Two ways of feeding come to the same: the same bytes are pushed, both err for the same reason or
neither does, and if neither does the same bytes are left. A call that errs consumes nothing, so
what is left then depends on where that call began. -/
structure Same (fed other : Fed) : Prop where
  pushed : fed.pushed = other.pushed
  failure : fed.failure = other.failure
  tail : fed.failure = none → fed.tail = other.tail

theorem Same.refl (fed : Fed) : fed.Same fed := ⟨rfl, rfl, fun _ => rfl⟩

theorem Same.symm {fed other : Fed} (h : fed.Same other) : other.Same fed :=
  ⟨h.pushed.symm, h.failure.symm, fun none => (h.tail (h.failure.trans none)).symm⟩

theorem Same.trans {fed middle other : Fed} (h : fed.Same middle) (h' : middle.Same other) :
    fed.Same other :=
  ⟨h.pushed.trans h'.pushed, h.failure.trans h'.failure,
    fun none => (h.tail none).trans (h'.tail (h.failure.symm.trans none))⟩

theorem Same.eq {fed other : Fed} (h : fed.Same other) (none : other.failure = none) :
    fed = other := by
  obtain ⟨_, _, _⟩ := fed
  obtain ⟨_, _, _⟩ := other
  obtain ⟨rfl, rfl, tail⟩ := h
  obtain rfl := tail none
  rfl

/-- Feeding comes to what a reader says: to the same, and what was not consumed has in it what the
reader leaves. -/
structure Comes (fed reading : Fed) : Prop extends fed.Same reading where
  unread : reading.tail <:+ fed.tail

theorem Comes.refl (fed : Fed) : fed.Comes fed := ⟨.refl fed, List.suffix_rfl⟩

theorem Comes.after {fed reading : Fed} (h : fed.Comes reading) (before : Bytes) :
    (fed.after before).Comes (reading.after before) :=
  ⟨⟨congrArg (before ++ ·) h.pushed, h.failure, h.tail⟩, h.unread⟩

theorem Comes.leaving {fed reading : Fed} (h : fed.Comes reading) (failed : fed.failure ≠ none)
    (more : Bytes) : (fed.leaving more).Comes (reading.leaving more) := by
  obtain ⟨again, split⟩ := h.unread
  refine ⟨⟨h.pushed, h.failure, fun none => (failed none).elim⟩, again, ?_⟩
  change again ++ (reading.tail ++ more) = fed.tail ++ more
  rw [← List.append_assoc, split]

theorem same_after_iff {fed other : Fed} {before : Bytes} :
    (fed.after before).Same (other.after before) ↔ fed.Same other :=
  ⟨fun h => ⟨List.append_cancel_left h.pushed, h.failure, h.tail⟩,
    fun h => ⟨congrArg (before ++ ·) h.pushed, h.failure, h.tail⟩⟩

end Fed

namespace Output

theorem fits_of_le {o : Output} {length longer : Nat} (larger : o.fits longer)
    (le : length ≤ longer) : o.fits length := by
  unfold fits at larger ⊢
  rcases Bool.or_eq_true_iff.1 larger with empty | room
  · rw [empty, Bool.true_or]
  · exact Bool.or_eq_true_iff.2 (.inr (decide_eq_true (Nat.le_trans le (of_decide_eq_true room))))

/-- Only a queue that holds something keeps a chunk from fitting. -/
theorem isEmpty_of_not_fits {o : Output} {length : Nat} (full : ¬o.fits length) :
    o.queue.isEmpty = false :=
  (Bool.or_eq_false_iff.1 (Bool.eq_false_iff.2 full)).1

/-- A chunk that fits is accepted. -/
theorem push_of_fits {o : Output} {chunk : Bytes} (room : o.fits chunk.length) :
    ∃ pushed, o.push chunk = .ok pushed ∧ pushed.chunks.flatten = o.chunks.flatten ++ chunk := by
  by_cases none : chunk.isEmpty
  · refine ⟨o, if_pos none, ?_⟩
    rw [List.isEmpty_iff.1 none, List.append_nil]
  · refine ⟨_, (if_neg none).trans (if_pos room), ?_⟩
    unfold chunks
    rw [List.reverse_cons, List.flatten_append, List.flatten_singleton]

end Output

/-- A decoder that keeps nothing between its calls: a call is given the buffer and an output. -/
abbrev Decoder := Bytes → Output → Step × Output

namespace Decoder

variable (decoder : Decoder) (ceiling : Nat)

/-- Calls the decoder on a buffer until it errs, asks for more or nothing is left. There is no
result if it goes on for ever, because a call neither consumes anything nor asks for more. -/
def exhaust (buffer : Bytes) : Option Fed :=
  if buffer = [] then some ⟨[], [], none⟩
  else
    match decoder buffer (.new .empty .empty ceiling) with
    | (.errored cause, o) => some ⟨o.chunks.flatten, buffer, some cause⟩
    | (.underflow consumed, o) => some ⟨o.chunks.flatten, buffer.drop consumed, none⟩
    | (.done consumed, o) =>
      if consumed = 0 then none
      else (exhaust (buffer.drop consumed)).map (·.after o.chunks.flatten)
termination_by buffer.length
decreasing_by
  rename_i held _
  have some := List.length_pos_iff.2 held
  rw [List.length_drop]
  omega

/-- Feeds pieces one after the other, with bytes in the buffer that were left before. Nothing is fed
once the decoder erred. -/
def feedFrom (buffer : Bytes) : List Bytes → Option Fed
  | [] => some ⟨[], buffer, none⟩
  | piece :: pieces => do
    let fed ← decoder.exhaust ceiling (buffer ++ piece)
    match fed.failure with
    | some _ => return fed.leaving pieces.flatten
    | none =>
      let more ← feedFrom fed.tail pieces
      return more.after fed.pushed

/-- Feeds a stream in pieces. -/
def feed (pieces : List Bytes) : Option Fed := decoder.feedFrom ceiling [] pieces

/-- What a call of a decoder should do, given what is to be read in its buffer. -/
structure Follows (decoder : Decoder) (ceiling : Nat) (read : Bytes → Fed) : Prop where
  nil : read [] = ⟨[], [], none⟩
  unread : ∀ buffer, (read buffer).tail <:+ buffer
  call : ∀ buffer, buffer ≠ [] →
    match decoder buffer (.new .empty .empty ceiling) with
    | (.errored cause, o) =>
      (read buffer).pushed = o.chunks.flatten ∧ (read buffer).failure = some cause
    | (.underflow consumed, o) => read buffer = ⟨o.chunks.flatten, buffer.drop consumed, none⟩
    | (.done consumed, o) =>
      consumed ≠ 0 ∧ read buffer = (read (buffer.drop consumed)).after o.chunks.flatten

variable {decoder ceiling} {read : Bytes → Fed}

/-- The calls on one buffer come to what is to be read in it, and there is an end to them. -/
theorem Follows.exhaust (follows : decoder.Follows ceiling read) (buffer : Bytes) :
    ∃ fed, decoder.exhaust ceiling buffer = some fed ∧ fed.Comes (read buffer) := by
  fun_induction Decoder.exhaust decoder ceiling buffer with
  | case1 =>
      refine ⟨_, rfl, ?_⟩
      rw [follows.nil]
      exact .refl _
  | case2 buffer held cause o called =>
      have spec := follows.call buffer held
      rw [called] at spec
      exact ⟨_, rfl, ⟨spec.1.symm, spec.2.symm, nofun⟩, follows.unread buffer⟩
  | case3 buffer held consumed o called =>
      have spec := follows.call buffer held
      rw [called] at spec
      refine ⟨_, rfl, ?_⟩
      rw [spec]
      exact .refl _
  | case4 buffer held o called =>
      have spec := follows.call buffer held
      rw [called] at spec
      exact (spec.1 rfl).elim
  | case5 buffer held consumed o called _ ih =>
      have spec := follows.call buffer held
      rw [called] at spec
      obtain ⟨fed, eq, comes⟩ := ih
      refine ⟨fed.after o.chunks.flatten, ?_, ?_⟩
      · rw [eq]
        rfl
      · rw [spec.2]
        exact comes.after _

/-- A piece that errs is the last one that is fed. -/
theorem Follows.feedFrom_of_failed (follows : decoder.Follows ceiling read) {buffer piece : Bytes}
    (failed : (read (buffer ++ piece)).failure ≠ none) (pieces : List Bytes) :
    ∃ fed, decoder.feedFrom ceiling buffer (piece :: pieces) = some fed ∧
      fed.Comes ((read (buffer ++ piece)).leaving pieces.flatten) := by
  obtain ⟨fed, eq, comes⟩ := follows.exhaust (buffer ++ piece)
  rw [← comes.failure] at failed
  obtain ⟨cause, failure⟩ := Option.ne_none_iff_exists'.1 failed
  refine ⟨fed.leaving pieces.flatten, ?_, ?_⟩
  · change (decoder.exhaust ceiling (buffer ++ piece)).bind _ = _
    rw [eq, Option.bind_some, failure]
    rfl
  · exact comes.leaving failed _

/-- After a piece that does not err, the next one joins what is left. -/
theorem Follows.feedFrom_of_waits (follows : decoder.Follows ceiling read) {buffer piece : Bytes}
    (waits : (read (buffer ++ piece)).failure = none) (pieces : List Bytes) :
    decoder.feedFrom ceiling buffer (piece :: pieces) =
      (decoder.feedFrom ceiling (read (buffer ++ piece)).tail pieces).map
        (·.after (read (buffer ++ piece)).pushed) := by
  obtain ⟨fed, eq, comes⟩ := follows.exhaust (buffer ++ piece)
  rw [comes.eq waits] at eq
  change (decoder.exhaust ceiling (buffer ++ piece)).bind _ = _
  rw [eq, Option.bind_some, waits]
  cases decoder.feedFrom ceiling (read (buffer ++ piece)).tail pieces <;> rfl

/-- A stream in one piece comes to what is to be read in it. -/
theorem Follows.feed_singleton (follows : decoder.Follows ceiling read) (stream : Bytes) :
    ∃ fed, decoder.feed ceiling [stream] = some fed ∧ fed.Comes (read stream) := by
  by_cases failure : (read ([] ++ stream)).failure = none
  · refine ⟨read stream, ?_, .refl _⟩
    rw [feed, follows.feedFrom_of_waits failure, feedFrom, Option.map_some, ← failure]
    change some (Fed.mk ((read stream).pushed ++ []) _ _) = _
    rw [List.append_nil]
    rfl
  · obtain ⟨fed, eq, comes⟩ := follows.feedFrom_of_failed failure []
    unfold Fed.leaving at comes
    rw [List.flatten_nil, List.append_nil] at comes
    exact ⟨fed, eq, comes⟩

end Decoder

end ByteFlow
