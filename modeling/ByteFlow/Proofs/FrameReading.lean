/-
# Reading frames

A stream is framed if it is a sequence of whole frames with an incomplete frame behind them, which
may be empty, or with a header that announces too much. Every stream is framed in just one way.

A frame decoder finds this framing, however the stream is cut: it pushes the payloads in order, errs
at a header that announces too much and says what it announces, and otherwise leaves the incomplete
frame as it is.
-/

import ByteFlow.Proofs.Units
import ByteFlow.Transform.Frames

namespace ByteFlow

namespace Frame

/-! ## Headers -/

theorem length_header (length : Nat) : (header length).length = headerLength := rfl

/-- What a header announces is the length that it was made for. -/
theorem headerValue_ofNat {length : Nat} (lt : length < lengthLimit) :
    headerValue (.ofNat (length / 0x1000000)) (.ofNat (length / 0x10000))
      (.ofNat (length / 0x100)) (.ofNat length) = length := by
  unfold lengthLimit at lt
  simp only [headerValue, UInt8.toNat_ofNat']
  omega

theorem headerValue_lt (a b c d : UInt8) : headerValue a b c d < lengthLimit := by
  have := a.toNat_lt
  have := b.toNat_lt
  have := c.toNat_lt
  have := d.toNat_lt
  unfold headerValue lengthLimit
  omega

/-- Any four bytes are the header of the length that they announce. -/
theorem header_headerValue (a b c d : UInt8) : header (headerValue a b c d) = [a, b, c, d] := by
  have := a.toNat_lt
  have := b.toNat_lt
  have := c.toNat_lt
  have := d.toNat_lt
  have first : UInt8.ofNat (headerValue a b c d / 0x1000000) = a := by
    apply UInt8.toNat_inj.1
    rw [UInt8.toNat_ofNat', headerValue]
    omega
  have second : UInt8.ofNat (headerValue a b c d / 0x10000) = b := by
    apply UInt8.toNat_inj.1
    rw [UInt8.toNat_ofNat', headerValue]
    omega
  have third : UInt8.ofNat (headerValue a b c d / 0x100) = c := by
    apply UInt8.toNat_inj.1
    rw [UInt8.toNat_ofNat', headerValue]
    omega
  have fourth : UInt8.ofNat (headerValue a b c d) = d := by
    apply UInt8.toNat_inj.1
    rw [UInt8.toNat_ofNat', headerValue]
    omega
  rw [header, first, second, third, fourth]

/-! ## The frame at the start -/

/-- A payload that a decoder accepts: it is short enough, and short enough for a header. -/
def Fits (max : Nat) (payload : Bytes) : Prop := payload.length ≤ max ∧ payload.length < lengthLimit

instance (max : Nat) (payload : Bytes) : Decidable (Fits max payload) :=
  inferInstanceAs (Decidable (_ ∧ _))

/-- A byte string is the beginning of a frame, of which bytes are missing. The frame is short enough
as far as can be seen, that is, if its header is there. -/
def Begins (max : Nat) (input : Bytes) : Prop :=
  ∃ payload missing, missing ≠ [] ∧ input ++ missing = encode payload ∧
    payload.length < lengthLimit ∧ (headerLength ≤ input.length → payload.length ≤ max)

/-- A byte string begins with a header that announces too much. -/
def Exceeds (max : Nat) (input : Bytes) (length : Nat) : Prop :=
  max < length ∧ length < lengthLimit ∧ header length <+: input

theorem length_encode (payload : Bytes) :
    (encode payload).length = headerLength + payload.length := by
  rw [encode, List.length_append, length_header]

theorem encode_ne_nil (payload : Bytes) : encode payload ≠ [] := List.cons_ne_nil _ _

/-- Behind a header the payload that it announces is looked for. -/
theorem front_header (max : Nat) {length : Nat} (lt : length < lengthLimit) (body : Bytes) :
    front max (header length ++ body) =
      if max < length then .tooLong length
      else if (body.take length).length < length then .incomplete
      else .whole (body.take length) (body.drop length) := by
  have value := headerValue_ofNat lt
  unfold header
  rw [List.cons_append, List.cons_append, List.cons_append, List.cons_append, List.nil_append,
    front]
  rw [value]

theorem front_encode {max : Nat} {payload : Bytes} (fits : Fits max payload) (rest : Bytes) :
    front max (encode payload ++ rest) = .whole payload rest := by
  rw [encode, List.append_assoc, front_header max fits.2, if_neg (Nat.not_lt.2 fits.1),
    List.take_left, if_neg (Nat.lt_irrefl _), List.drop_left]

theorem front_of_exceeds {max length : Nat} {input : Bytes} (exceeds : Exceeds max input length) :
    front max input = .tooLong length := by
  obtain ⟨long, lt, body, rfl⟩ := exceeds
  rw [front_header max lt, if_pos long]

theorem front_of_short {max : Nat} {input : Bytes} (held : input ≠ [])
    (short : input.length < headerLength) : front max input = .incomplete := by
  unfold front
  split
  · exact (held rfl).elim
  · rw [List.length_cons, List.length_cons, List.length_cons, List.length_cons] at short
    exact absurd short (by unfold headerLength; omega)
  · rfl

theorem front_of_begins {max : Nat} {input : Bytes} (held : input ≠ [])
    (begins : Begins max input) : front max input = .incomplete := by
  obtain ⟨payload, missing, some, split, lt, fits⟩ := begins
  by_cases short : input.length < headerLength
  · exact front_of_short held short
  · have headed : header payload.length <+: input := by
      refine List.prefix_of_prefix_length_le ⟨payload, rfl⟩ ⟨missing, split⟩ ?_
      exact Nat.not_lt.1 short
    obtain ⟨body, rfl⟩ := headed
    have lacks : body ++ missing = payload := by
      rw [encode, List.append_assoc] at split
      exact List.append_cancel_left split
    have count := congrArg List.length lacks
    have missed := List.length_pos_iff.2 some
    rw [List.length_append] at count
    rw [front_header max lt, if_neg (Nat.not_lt.2 (fits (Nat.not_lt.1 short))), if_pos]
    rw [List.length_take]
    omega

/-- Less than a header is the beginning of some frame. -/
theorem begins_of_append {max : Nat} {input : Bytes} (more : Bytes) {a b c d : UInt8}
    (some : more ≠ []) (split : input ++ more = [a, b, c, d]) : Begins max input := by
  have count := congrArg List.length split
  have missed := List.length_pos_iff.2 some
  rw [List.length_append] at count
  let payload : Bytes := List.replicate (headerValue a b c d) 0
  have length : payload.length = headerValue a b c d := List.length_replicate
  refine ⟨payload, more ++ payload, List.append_ne_nil_of_left_ne_nil some _, ?_, ?_, ?_⟩
  · rw [← List.append_assoc, split, encode, length, header_headerValue]
  · rw [length]
    exact headerValue_lt a b c d
  · intro headed
    change 4 ≤ input.length at headed
    change _ = 4 at count
    omega

/-- A byte string is empty, begins with a whole frame or with a header that announces too much, or
is the beginning of a frame. -/
theorem eq_front (max : Nat) (input : Bytes) :
    match front max input with
    | .none => input = []
    | .incomplete => input ≠ [] ∧ Begins max input
    | .tooLong length => Exceeds max input length
    | .whole payload rest => input = encode payload ++ rest ∧ Fits max payload := by
  match input with
  | [] => rfl
  | [a] =>
      exact ⟨List.cons_ne_nil _ _, begins_of_append [0, 0, 0] (List.cons_ne_nil _ _) rfl⟩
  | [a, b] =>
      exact ⟨List.cons_ne_nil _ _, begins_of_append [0, 0] (List.cons_ne_nil _ _) rfl⟩
  | [a, b, c] =>
      exact ⟨List.cons_ne_nil _ _, begins_of_append [0] (List.cons_ne_nil _ _) rfl⟩
  | a :: b :: c :: d :: body =>
      have headed : a :: b :: c :: d :: body = header (headerValue a b c d) ++ body := by
        rw [header_headerValue]
        rfl
      have lt := headerValue_lt a b c d
      rw [headed]
      generalize headerValue a b c d = length at lt
      rw [front_header max lt]
      by_cases long : max < length
      · rw [if_pos long]
        exact ⟨long, lt, List.prefix_append _ _⟩
      · rw [if_neg long]
        by_cases lacks : (body.take length).length < length
        · rw [if_pos lacks]
          rw [List.length_take] at lacks
          let missing : Bytes := List.replicate (length - body.length) 0
          have whole : (body ++ missing).length = length := by
            rw [List.length_append, List.length_replicate]
            omega
          refine ⟨List.cons_ne_nil _ _, body ++ missing, missing, ?_, ?_, ?_, fun _ => ?_⟩
          · apply List.ne_nil_of_length_pos
            rw [List.length_replicate]
            omega
          · rw [encode, whole, List.append_assoc]
          · rw [whole]
            exact lt
          · rw [whole]
            exact Nat.not_lt.1 long
        · rw [if_neg lacks]
          have whole : (body.take length).length = length := by
            rw [List.length_take] at lacks ⊢
            omega
          refine ⟨?_, ?_, ?_⟩
          · rw [encode, whole, List.append_assoc, List.take_append_drop]
          · rw [whole]
            exact Nat.not_lt.1 long
          · rw [whole]
            exact lt

/-! ## Framings -/

/-- A stream taken apart: the payloads of its frames, what is behind them, and the length that is
too much, if that begins with a header that announces too much. -/
structure Framing where
  payloads : List Bytes
  tail : Bytes
  excess : Option Nat
deriving DecidableEq, Repr

/-- What a decoder with that limit should come to. -/
def Framing.fed (max : Nat) (framing : Framing) : Fed :=
  ⟨framing.payloads.flatten, framing.tail, framing.excess.map (.frameTooLong · max)⟩

/-- What can be behind whole frames: the beginning of a frame, perhaps of no length, or a header
that announces too much. -/
def Ends (max : Nat) (tail : Bytes) : Option Nat → Prop
  | none => Begins max tail
  | some length => Exceeds max tail length

/-- A stream is a sequence of whole frames and what is behind them. -/
structure Framed (max : Nat) (stream : Bytes) (framing : Framing) : Prop where
  whole : stream = (framing.payloads.map encode).flatten ++ framing.tail
  fits : ∀ payload ∈ framing.payloads, Fits max payload
  ends : Ends max framing.tail framing.excess

theorem begins_nil (max : Nat) : Begins max [] := by
  refine ⟨[], encode [], encode_ne_nil [], rfl, by decide, fun headed => ?_⟩
  exact absurd headed (by decide)

/-- Takes a stream apart. -/
def framing (max : Nat) (stream : Bytes) : Framing :=
  match _h : front max stream with
  | .none => ⟨[], [], none⟩
  | .incomplete => ⟨[], stream, none⟩
  | .tooLong length => ⟨[], stream, some length⟩
  | .whole payload rest =>
    let others := framing max rest
    { others with payloads := payload :: others.payloads }
termination_by stream.length
decreasing_by exact length_rest_lt_of_front _h

theorem framing_encode {max : Nat} {payload : Bytes} (fits : Fits max payload) (rest : Bytes) :
    framing max (encode payload ++ rest) =
      { framing max rest with payloads := payload :: (framing max rest).payloads } := by
  rw [framing]
  split
  all_goals
    rename_i front
    cases (front_encode fits rest).symm.trans front
  rfl

/-- Whole frames are taken off the front of a stream. -/
theorem framing_frames {max : Nat} {payloads : List Bytes}
    (fits : ∀ payload ∈ payloads, Fits max payload) (rest : Bytes) :
    framing max ((payloads.map encode).flatten ++ rest) =
      { framing max rest with payloads := payloads ++ (framing max rest).payloads } := by
  induction payloads with
  | nil => rfl
  | cons payload payloads ih =>
      obtain ⟨first, others⟩ := List.forall_mem_cons.1 fits
      rw [List.map_cons, List.flatten_cons, List.append_assoc, framing_encode first, ih others]
      rfl

theorem framing_of_ends {max : Nat} {tail : Bytes} {excess : Option Nat}
    (ends : Ends max tail excess) : framing max tail = ⟨[], tail, excess⟩ := by
  cases excess with
  | some length =>
      rw [framing]
      split
      all_goals
        rename_i front
        cases (front_of_exceeds ends).symm.trans front
      rfl
  | none =>
      by_cases held : tail = []
      · rw [held, framing]
        rfl
      · rw [framing]
        split
        all_goals
          rename_i front
          cases (front_of_begins held ends).symm.trans front
        rfl

theorem framed_framing (max : Nat) (stream : Bytes) : Framed max stream (framing max stream) := by
  fun_induction framing max stream with
  | case1 stream front =>
      have eq := eq_front max stream
      rw [front] at eq
      exact ⟨eq, List.forall_mem_nil _, begins_nil max⟩
  | case2 stream front =>
      have eq := eq_front max stream
      rw [front] at eq
      exact ⟨rfl, List.forall_mem_nil _, eq.2⟩
  | case3 stream length front =>
      have eq := eq_front max stream
      rw [front] at eq
      exact ⟨rfl, List.forall_mem_nil _, eq⟩
  | case4 stream payload rest front others ih =>
      have eq := eq_front max stream
      rw [front] at eq
      refine ⟨?_, List.forall_mem_cons.2 ⟨eq.2, ih.fits⟩, ih.ends⟩
      rw [eq.1, List.map_cons, List.flatten_cons, List.append_assoc, ← ih.whole]

/-- Every stream is framed in just one way. -/
theorem framed_iff {max : Nat} {stream : Bytes} {taken : Framing} :
    Framed max stream taken ↔ taken = framing max stream := by
  constructor
  · intro ⟨whole, fits, ends⟩
    rw [whole, framing_frames fits, framing_of_ends ends, List.append_nil]
  · rintro rfl
    exact framed_framing max stream

end Frame

namespace FrameDecoder

variable (t : FrameDecoder)

/-! ## Decoding -/

/-- Frames as the units of a decoder. -/
def format : Format where
  unit used pushed := used = Frame.encode pushed ∧ Frame.Fits t.maxFrame pushed
  incomplete rest := rest ≠ [] ∧ Frame.Begins t.maxFrame rest
  rejected rest cause :=
    ∃ length, Frame.Exceeds t.maxFrame rest length ∧ cause = .frameTooLong length t.maxFrame
  ne_nil_of_unit unit := by
    rw [unit.1]
    exact Frame.encode_ne_nil _

theorem handles_unpack (consumed : Nat) (rest : Bytes) (o : Output) :
    t.format.Handles consumed rest o (t.unpack consumed rest o) := by
  fun_induction unpack t consumed rest o with
  | case1 consumed rest o front =>
      have eq := Frame.eq_front t.maxFrame rest
      rw [front] at eq
      rw [eq]
      exact .nothing
  | case2 consumed rest o front =>
      have eq := Frame.eq_front t.maxFrame rest
      rw [front] at eq
      exact .incomplete eq
  | case3 consumed rest o length front =>
      have eq := Frame.eq_front t.maxFrame rest
      rw [front] at eq
      exact .rejected ⟨length, eq, rfl⟩
  | case4 consumed rest o payload next front room e refused =>
      obtain ⟨_, accepted, _⟩ := Output.push_of_fits room
      rw [accepted] at refused
      cases refused
  | case5 consumed rest o payload next front room pushed accepted ih =>
      have eq := Frame.eq_front t.maxFrame rest
      rw [front] at eq
      obtain ⟨_, again, flatten⟩ := Output.push_of_fits room
      rw [accepted] at again
      cases again
      rw [eq.1]
      refine .unit ⟨rfl, eq.2⟩ flatten ?_
      rw [Frame.length_encode]
      exact ih
  | case6 consumed rest o payload next front full =>
      refine .full (Output.isEmpty_of_not_fits full) ?_
      intro ⟨held, begins⟩
      rw [Frame.front_of_begins held begins] at front
      cases front

/-- What is to be read in a stream. -/
def read (stream : Bytes) : Fed := (Frame.framing t.maxFrame stream).fed t.maxFrame

theorem read_of_ends {tail : Bytes} (excess : Option Nat)
    (ends : Frame.Ends t.maxFrame tail excess) :
    t.read tail = ⟨[], tail, excess.map (.frameTooLong · t.maxFrame)⟩ := by
  rw [read, Frame.framing_of_ends ends]
  rfl

theorem reads_read : t.format.Reads t.read where
  nil := t.read_of_ends none (Frame.begins_nil _)
  unit := by
    rintro used pushed ⟨rfl, fits⟩ rest
    rw [read, Frame.framing_encode fits]
    rfl
  incomplete incomplete := t.read_of_ends none incomplete.2
  rejected := by
    rintro rest _ ⟨length, exceeds, rfl⟩
    exact t.read_of_ends (some length) exceeds
  unread stream := ⟨_, (Frame.framed_framing t.maxFrame stream).whole.symm⟩

/-- Reading can be taken up again where it ended, with more bytes behind what was left. -/
theorem read_append (stream more : Bytes) :
    t.read (stream ++ more) =
      (t.read ((t.read stream).tail ++ more)).after (t.read stream).pushed := by
  have framed := Frame.framed_framing t.maxFrame stream
  have again := Frame.framing_frames framed.fits ((t.read stream).tail ++ more)
  rw [← List.append_assoc] at again
  change Frame.framing t.maxFrame (_ ++ (Frame.framing t.maxFrame stream).tail ++ more) = _ at again
  rw [← framed.whole] at again
  rw [read, again, Frame.Framing.fed, List.flatten_append]
  rfl

/-- A header that announces too much does so with anything behind it. -/
theorem settles_read : Decoder.Settles t.read where
  resumes _ more := t.read_append _ more
  errs := by
    intro stream failed more
    have ends := (Frame.framed_framing t.maxFrame stream).ends
    have excess : (Frame.framing t.maxFrame stream).excess ≠ none :=
      fun none => failed (congrArg (Option.map _) none)
    obtain ⟨length, excess⟩ := Option.ne_none_iff_exists'.1 excess
    rw [excess] at ends
    obtain ⟨long, lt, headed⟩ := ends
    have ends : Frame.Ends t.maxFrame ((t.read stream).tail ++ more) (some length) :=
      ⟨long, lt, headed.trans (List.prefix_append _ _)⟩
    rw [read_append, t.read_of_ends _ ends, ← excess, Fed.after, List.append_nil]
    rfl

/-- A frame decoder finds the one framing of its stream, however the stream is cut and whatever the
ceiling: it pushes the payloads, errs exactly at a header that announces too much, with what it
announces in the message, and otherwise leaves the incomplete frame at the end. -/
theorem feed_framed (ceiling : Nat) (pieces : List Bytes) :
    ∃ framing : Frame.Framing,
      (∀ taken, Frame.Framed t.maxFrame pieces.flatten taken ↔ taken = framing) ∧
      ∃ fed, Decoder.feed t.step ceiling pieces = some fed ∧
        fed.pushed = framing.payloads.flatten ∧
        fed.failure = framing.excess.map (.frameTooLong · t.maxFrame) ∧
        fed.failure.map Cause.message = framing.excess.map (fun length =>
          "frame of " ++ toString length ++ " bytes exceeds the maximum of " ++
            toString t.maxFrame ++ " bytes") ∧
        (framing.excess = none → fed.tail = framing.tail) := by
  have follows : Decoder.Follows t.step ceiling t.read :=
    t.reads_read.follows (t.handles_unpack 0)
  obtain ⟨fed, eq, comes⟩ := follows.feedFrom_of_settles t.settles_read t.reads_read.nil pieces
  rw [List.nil_append] at comes
  have failure : fed.failure = _ := comes.failure
  refine ⟨Frame.framing t.maxFrame pieces.flatten, fun _ => Frame.framed_iff, fed, eq,
    comes.pushed, failure, ?_, ?_⟩
  · rw [failure]
    exact Option.map_map _ _ _
  · intro none
    apply comes.tail
    rw [failure]
    exact congrArg (Option.map _) none

end FrameDecoder

end ByteFlow
