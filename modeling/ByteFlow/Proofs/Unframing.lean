/-
# Frames out of a bounded source

A pipe that unpacks frames can wait for the rest of a frame only while there is room for it in the
source. If all frames of its stream fit into the source, the pipe never fails, and delivers every
payload that came in whole. Otherwise it gets as far as the first frame that does not fit: nothing
of that frame or of what follows is pushed, and the pipe fails once the beginning of the frame fills
the source.
-/

import ByteFlow.Proofs.FrameReading
import ByteFlow.Proofs.Schedule

namespace ByteFlow

open Machine

namespace FrameDecoder

variable (t : FrameDecoder)

theorem codes : t.format.Codes (Codec.frameDecoder t) where
  same _ _ := rfl
  handles input o _ _ := ⟨_, rfl, t.handles_unpack 0 input o⟩

/-- A stream begins with at most one frame. -/
theorem clear : t.format.Clear := by
  refine t.reads_read.clear ?_
  rintro _ payload _ payload' rest rest' ⟨rfl, fits⟩ ⟨rfl, fits'⟩ same
  have front := Frame.front_encode fits rest
  rw [same, Frame.front_encode fits'] at front
  cases front
  exact ⟨rfl, rfl⟩

/-- Every beginning of a frame is incomplete. -/
theorem spells : t.format.Spells t.format.unit where
  unit := id
  begins := by
    rintro front missing payload ⟨split, fits⟩ held lacks
    exact ⟨held, payload, missing, lacks, split, fits.2, fun _ => fits.1⟩

variable {t}

/-- Frames in a row are the translation of their payloads in a row. -/
theorem translates_frames {word : Bytes → Bytes → Prop} {payloads : List Bytes}
    (words : ∀ payload ∈ payloads, word (Frame.encode payload) payload) :
    Translates word (payloads.map Frame.encode).flatten payloads.flatten := by
  induction payloads with
  | nil => exact .nil
  | cons payload payloads ih =>
      obtain ⟨first, others⟩ := List.forall_mem_cons.1 words
      exact .cons first (ih others)

theorem frames_of_translates {used pushed : Bytes} (h : Translates t.format.unit used pushed) :
    ∃ payloads : List Bytes, used = (payloads.map Frame.encode).flatten ∧
      pushed = payloads.flatten ∧ ∀ payload ∈ payloads, Frame.Fits t.maxFrame payload := by
  induction h with
  | nil => exact ⟨[], rfl, rfl, List.forall_mem_nil _⟩
  | @cons _ payload _ _ first _ ih =>
      obtain ⟨payloads, rfl, rfl, fits⟩ := ih
      obtain ⟨rfl, short⟩ := first
      exact ⟨payload :: payloads, rfl, rfl, List.forall_mem_cons.2 ⟨short, fits⟩⟩

/-- A payload is shorter than its frame. -/
theorem length_le_of_translates {used pushed : Bytes} (h : Translates t.format.unit used pushed) :
    pushed.length ≤ used.length := by
  induction h with
  | nil => exact Nat.le_refl 0
  | cons first _ ih =>
      rw [List.length_append, List.length_append, first.1, Frame.length_encode]
      omega

end FrameDecoder

namespace Course

variable {ω : Type} {t : FrameDecoder} {d : RingId} {options : PipeOptions} {ring : Ring}
  {got gave more : Bytes} {pipe : Pipe Codec} {now : Ring} {ledger : Ledger}
  {payloads before after : List Bytes} {big : Bytes} {told : List HandlerId}

/-- The course of a pipe that unpacks frames, and tells these handlers of its edges. -/
abbrev unframing (t : FrameDecoder) (d : RingId) (options : PipeOptions) (ring : Ring)
    (told : List HandlerId) : Course Codec :=
  { Course.new t.format (.frameDecoder t) d options ring with handlers := told }

/-- No more is delivered than what the ring held and what came in. -/
theorem Holds.length_gave_le
    (h : (unframing t d options ring told).Holds got gave pipe now ledger) :
    gave.length ≤ ring.toList.length + got.length := by
  obtain ⟨used, rest, content, translates⟩ := h.standing.split
  have short := FrameDecoder.length_le_of_translates (translates.imp fun _ _ _ within => within.1)
  have inbound := congrArg List.length h.inbound
  have outbound : _ = ring.toList.length + ledger.pushed.length :=
    (congrArg List.length h.outbound).trans List.length_append
  rw [content] at inbound
  simp only [List.length_append] at short inbound outbound
  omega

/-- Frames that come in are words of the format. -/
theorem Holds.translates_frames {word : Bytes → Bytes → Prop}
    (h : (unframing t d options ring told).Holds got gave pipe now ledger)
    (words : ∀ payload ∈ payloads, word (Frame.encode payload) payload)
    (stream : got ++ more = (payloads.map Frame.encode).flatten) :
    Translates word (ledger.consumed ++ pipe.source.toList ++ more) payloads.flatten := by
  rw [h.inbound, stream]
  exact FrameDecoder.translates_frames words

/-- A pipe has not failed if all frames fit into its source. -/
theorem Holds.intact_of_frames
    (h : (unframing t d options ring told).Holds got gave pipe now ledger)
    (room : 0 < (unframing t d options ring told).room)
    (fits : ∀ payload ∈ payloads, Frame.Fits t.maxFrame payload ∧
      (Frame.encode payload).length ≤ (unframing t d options ring told).room)
    (stream : got ++ more = (payloads.map Frame.encode).flatten) : pipe.failure = none := by
  have whole : Translates (t.format.Within _) _ payloads.flatten := h.translates_frames
    (fun payload member => ⟨⟨rfl, (fits payload member).1⟩, (fits payload member).2⟩) stream
  exact h.standing.intact_of_words t.clear (t.spells.of_imp fun within => within.1)
    (fun within => within.2) room whole

/-- Once its destination is empty, a pipe that has not failed has delivered the payloads that came
in whole, and holds what came in of one more frame. -/
theorem Company.Rests.framed (h : (unframing t d options ring told).Rests got gave pipe now ledger)
    (sized : 0 < (unframing t d options ring told).size)
    (room : 0 < (unframing t d options ring told).room)
    (ceiling : 0 < (unframing t d options ring told).ceiling) (intact : pipe.failure = none)
    (drained : now.used = 0) :
    ∃ whole tail, Frame.Framed t.maxFrame got ⟨whole, tail, none⟩ ∧
      gave = ring.toList ++ whole.flatten ∧ pipe.source.toList = tail := by
  obtain ⟨_, delivered, _, left⟩ := h.delivered rfl intact sized room ceiling drained
  have standing := h.standing
  rw [intact] at standing
  have within : Translates (t.format.Within _) ledger.consumed ledger.pushed := standing
  obtain ⟨whole, used, pushed, fits⟩ :=
    FrameDecoder.frames_of_translates (within.imp fun _ _ _ within => within.1)
  refine ⟨whole, pipe.source.toList, ⟨?_, fits, ?_⟩, ?_, rfl⟩
  · rw [← h.inbound, used]
  · rcases left with none | incomplete
    · change Frame.Begins t.maxFrame pipe.source.toList
      rw [none]
      exact Frame.begins_nil _
    · exact incomplete.2
  · rw [delivered, pushed]
    rfl

section Oversize

variable (h : (unframing t d options ring told).Holds got gave pipe now ledger)
  (fits : ∀ payload ∈ before ++ big :: after, Frame.Fits t.maxFrame payload)
  (small : ∀ payload ∈ before,
    (Frame.encode payload).length ≤ (unframing t d options ring told).room)
  (oversize : (unframing t d options ring told).room < (Frame.encode big).length)
  (stream : got ++ more = ((before ++ big :: after).map Frame.encode).flatten)

include h stream

/-- Behind the bytes that were consumed, the stream goes on with those in the source. -/
theorem Holds.stream_eq :
    ledger.consumed ++ (pipe.source.toList ++ more) = (before.map Frame.encode).flatten ++
      (Frame.encode big ++ (after.map Frame.encode).flatten) := by
  rw [← List.append_assoc, h.inbound, stream, List.map_append, List.flatten_append, List.map_cons,
    List.flatten_cons]

include fits small oversize

/-- Frames are taken only up to the one that does not fit. -/
theorem Holds.before_oversize {used rest pushed : Bytes}
    (split : pipe.source.toList = used ++ rest)
    (taken : Translates (t.format.Within (unframing t d options ring told).room)
      (ledger.consumed ++ used) pushed) :
    ∃ left more, (before.map Frame.encode).flatten = ledger.consumed ++ used ++ left ∧
      before.flatten = pushed ++ more ∧
      Translates (t.format.Within (unframing t d options ring told).room) left more := by
  have words :
      Translates (t.format.Within (unframing t d options ring told).room) _ before.flatten :=
    FrameDecoder.translates_frames
      fun payload member =>
        ⟨⟨rfl, fits payload (List.mem_append_left _ member)⟩, small payload member⟩
  have same := h.stream_eq stream
  rw [split, List.append_assoc used, ← List.append_assoc] at same
  exact t.clear.before_untaken (fun within => within.1) (fun within => within.1) taken words
    ⟨rfl, fits big (List.mem_append_right _ List.mem_cons_self)⟩
    (fun within => Nat.not_le.2 oversize within.2) same

/-- Nothing of a frame that does not fit, or of what follows it, is pushed. -/
theorem Holds.output_prefix :
    gave ++ now.toList ++ pipe.queue.toList <+: ring.toList ++ before.flatten := by
  obtain ⟨used, rest, split, taken⟩ := h.standing.split
  obtain ⟨_, unpushed, _, whole, _⟩ := h.before_oversize fits small oversize stream split taken
  rw [h.outbound, whole]
  exact ⟨unpushed, List.append_assoc _ _ _⟩

/-- The pipe fails only if the beginning of the frame that does not fit fills the source. -/
theorem Holds.oversize_of_failed (failed : pipe.failure ≠ none) :
    pipe.failure = some .underflow ∧ pipe.source.isFull ∧
      ledger.consumed = (before.map Frame.encode).flatten := by
  have whole : Translates t.format.unit _ _ :=
    h.translates_frames (fun payload member => ⟨rfl, fits payload member⟩) stream
  obtain ⟨taken, intact | ⟨underflow, incomplete, full⟩⟩ :=
    h.standing.of_words t.clear t.spells whole
  · exact (failed intact).elim
  · have used := h.source.valid.length_toList
    rw [full] at used
    refine ⟨underflow, beq_iff_eq.2 (used.symm.trans h.source.size.symm), ?_⟩
    rw [← List.append_nil ledger.consumed] at taken
    obtain ⟨left, _, behind, _, words⟩ :=
      h.before_oversize fits small oversize stream (List.nil_append _).symm taken
    rw [List.append_nil] at behind
    rw [behind]
    cases words with
    | nil => rw [List.append_nil]
    | @cons used pushed others _ first _ =>
        -- A frame that fits would be all in the source, which is not incomplete then.
        have same := h.stream_eq stream
        rw [behind, List.append_assoc ledger.consumed] at same
        have source : pipe.source.toList ++ more = used ++ (others ++ _) :=
          (List.append_cancel_left same).trans (List.append_assoc _ _ _)
        have inside : used <+: pipe.source.toList := by
          refine List.prefix_of_prefix_length_le ⟨_, source.symm⟩ (List.prefix_append _ _) ?_
          rw [full]
          exact first.2
        obtain ⟨rest, eq⟩ := inside
        rw [← eq] at incomplete
        exact (t.clear.complete first.1 incomplete).elim

end Oversize

/-- The beginning of a frame that fills the source is the end of a pipe whose queue has been drained
below the ceiling. -/
theorem Company.Rests.failed_of_oversize
    (h : (unframing t d options ring told).Rests got gave pipe now ledger)
    (fits : ∀ payload ∈ before ++ big :: after, Frame.Fits t.maxFrame payload)
    (oversize : (unframing t d options ring told).room < (Frame.encode big).length)
    (stream : got ++ more = ((before ++ big :: after).map Frame.encode).flatten)
    (room : 0 < (unframing t d options ring told).room)
    (front : ledger.consumed = (before.map Frame.encode).flatten) (full : pipe.source.isFull)
    (low : pipe.queue.bytes < options.ceiling) : pipe.failure = some .underflow := by
  have filled : pipe.source.toList.length = (unframing t d options ring told).room := by
    rw [h.source.valid.length_toList, beq_iff_eq.1 full, h.source.size]
  have same := h.toHolds.stream_eq stream
  rw [front] at same
  have begins : pipe.source.toList <+: Frame.encode big := by
    refine List.prefix_of_prefix_length_le ⟨_, List.append_cancel_left same⟩
      (List.prefix_append _ _) ?_
    rw [filled]
    exact Nat.le_of_lt oversize
  have whole : Translates t.format.unit _ _ :=
    h.toHolds.translates_frames (fun payload member => ⟨rfl, fits payload member⟩) stream
  obtain ⟨_, intact | ⟨underflow, _⟩⟩ := h.standing.of_words t.clear t.spells whole
  · have held : pipe.source.toList ≠ [] := List.ne_nil_of_length_pos (filled ▸ room)
    obtain ⟨_, quiet⟩ := h.settled intact
    rcases quiet (h.isReady held low) with ⟨_, input, some, ⟨others, part⟩, complete⟩ | ⟨_, free⟩
    · obtain ⟨missing, split⟩ := begins
      rw [← part, List.append_assoc] at split
      refine (complete ?_).elim
      refine t.spells.begins ⟨split, fits big (List.mem_append_right _ List.mem_cons_self)⟩ some ?_
      intro lacks
      have count := congrArg List.length part
      rw [lacks, List.append_nil] at split
      rw [List.length_append, split, filled] at count
      omega
    · refine (free ?_).elim
      rw [Ring.free, beq_iff_eq.1 full, Nat.sub_self]
  · exact underflow

end Course

/-- A pipe that unpacks frames never fails if every frame of its stream fits into its source, and
delivers all payloads that came in whole once its destination is written out. If a frame does not
fit, then nothing of the first such frame or of what follows it is ever pushed; the pipe fails if
the beginning of the frame fills the source and the queue is below the ceiling, and for no other
reason. This holds with any handlers, and after any calls that store, run or write out, one after
the other. -/
theorem frames_fit_or_starve {ω : Type} {o : Owner Codec ω} (passive : o.Passive)
    (t : FrameDecoder) {d : RingId} {direction : Direction} {options : PipeOptions}
    {w₀ w₁ : World Codec ω} {p : PipeId}
    (usable : (w₀.rings.get d).ring.Valid ∧ (w₀.rings.get d).ring.cleaned = false)
    (free : ∀ q, .listener q ∉ (w₀.rings.get d).observers)
    (sized : 0 < (w₀.rings.get d).ring.capacity) (heap : options.sourceRegion = .heap)
    (granted : options.sourceCapacity.getD (w₀.rings.get d).ring.capacity +
      (w₀.rings.get d).ring.capacity + 2 ≤ o.passes)
    (made : Pipe.create direction d (.frameDecoder t) options w₀ = .ok (.ok p) w₁)
    (handlers : List HandlerId) {calls : List ((α : Type) × Call Codec ω α)}
    (tame : ∀ call ∈ calls, call.2.Tame p) :
    let ring := (w₀.rings.get d).ring
    let room := options.sourceCapacity.getD ring.capacity
    ∃ w₂, (do handlers.forM (Pipe.addHandler p); Call.performAll o calls) w₁ = .ok () w₂ ∧
      let pipe := w₂.pipes.get p
      let ledger := Ledger.of p w₂.journal
      ∀ payloads : List Bytes, (∀ payload ∈ payloads, Frame.Fits t.maxFrame payload) →
        ledger.received <+: (payloads.map Frame.encode).flatten →
        ((∀ payload ∈ payloads, (Frame.encode payload).length ≤ room) →
          pipe.failure = none ∧
          ∀ (sink : Sink (Machine Codec ω)) (max : Nat), sink.Tame → sink.Greedy → 0 < max →
            ∃ rounds w₃ whole tail, Pipe.exhaust o p sink max rounds w₂ = .ok () w₃ ∧
              (w₃.pipes.get p).failure = none ∧
              Frame.Framed t.maxFrame ledger.received ⟨whole, tail, none⟩ ∧
              (Ledger.of p w₃.journal).accepted = ring.toList ++ whole.flatten ∧
              (w₃.pipes.get p).source.toList = tail) ∧
        ∀ before big after, payloads = before ++ big :: after →
          (∀ payload ∈ before, (Frame.encode payload).length ≤ room) →
          room < (Frame.encode big).length →
          ledger.accepted ++ (w₂.rings.get d).ring.toList ++ pipe.queue.toList <+:
            ring.toList ++ before.flatten ∧
          (pipe.failure ≠ none → pipe.failure = some .underflow ∧ pipe.source.isFull ∧
            ledger.consumed = (before.map Frame.encode).flatten) ∧
          (ledger.consumed = (before.map Frame.encode).flatten → pipe.source.isFull →
            pipe.queue.bytes < options.ceiling → pipe.failure = some .underflow) := by
  intro ring room
  let c := Course.new t.format (Codec.frameDecoder t) d options ring
  have opens : c.Opens p w₀ w₁ :=
    Course.ensures_create t.format usable free direction _ (fun _ => heap) rfl made p rfl
  obtain ⟨told, between, enrolled, begun⟩ := opens.start.addHandlers handlers
  have roomy : (Course.unframing t d options ring told).Roomy o := granted
  obtain ⟨w₂, ran, stays⟩ := Course.At.performAll (fun _ _ other => (other rfl).elim) passive
    (fun _ => ⟨t.codes, roomy⟩) (fun _ : Unit => ⟨[], [], begun⟩)
    fun call member => ⟨(), tame call member⟩
  obtain ⟨got, gave, stays⟩ := stays ()
  refine ⟨w₂, (bind_of_ok enrolled).trans ran, fun payloads fits arrived => ?_⟩
  have received : (Ledger.of p w₂.journal).received = got := stays.rests.received
  have accepted : (Ledger.of p w₂.journal).accepted = gave := stays.rests.accepted
  rw [received] at arrived ⊢
  rw [accepted]
  obtain ⟨more, stream⟩ := arrived
  refine ⟨fun small => ?_, ?_⟩
  · have intact {w : World Codec ω} {gave : Bytes}
        (stays : (Course.unframing t d options ring told).At p got gave w) :
        (w.pipes.get p).failure = none :=
      stays.rests.intact_of_frames opens.room
        (fun payload member => ⟨fits payload member, small payload member⟩) stream
    refine ⟨intact stays, fun sink max calm greedy some => ?_⟩
    obtain ⟨rounds, w₃, gave', drains, stays, drained⟩ :=
      stays.exhaust passive t.codes roomy calm greedy some fun _ _ stays =>
        stays.rests.length_gave_le
    obtain ⟨whole, tail, framed, delivered, left⟩ :=
      stays.rests.framed sized opens.room opens.ceiling (intact stays) drained
    have accepted : (Ledger.of p w₃.journal).accepted = gave' := stays.rests.accepted
    exact ⟨rounds, w₃, whole, tail, drains, intact stays, framed, accepted.trans delivered, left⟩
  · rintro before big after rfl small oversize
    exact ⟨stays.rests.output_prefix fits small oversize stream,
      stays.rests.oversize_of_failed fits small oversize stream,
      stays.rests.failed_of_oversize fits oversize stream opens.room⟩

namespace Narrow

/-- An owner whose handlers make no calls. -/
def owner : Owner Codec Unit := ⟨fun _ _ => pure (), 10⟩

/-- A world with one ring of two bytes. -/
def world : World Codec Unit := ⟨⟨[⟨.empty 2 .heap, []⟩]⟩, .empty, [], ()⟩

/-- A source that holds frames of six bytes at most. -/
def options : PipeOptions := ⟨4, some 6, .heap⟩

/-- Makes a pipe that unpacks frames. -/
def make : Machine Codec Unit (Except Error PipeId) :=
  Pipe.create .unwrap 0 (.frameDecoder ⟨8⟩) options

/-- Registers a handler with the pipe, and makes the calls. -/
def work (calls : List ((α : Type) × Call Codec Unit α)) : Machine Codec Unit Unit := do
  [7].forM (Pipe.addHandler 0)
  Call.performAll owner calls

/-- Stores a first part of some bytes. -/
def feed (data : Bytes) : (α : Type) × Call Codec Unit α :=
  ⟨_, .feed 0 ⟨fun wanted => pure (.ok (data.take wanted)), pure false⟩⟩

theorem tame_feed (data : Bytes) : (feed data).2.Tame 0 :=
  ⟨rfl, fun _ => discreet_pure _, discreet_pure _, fun _ => ensures_pure fun _ _ => ⟨_, rfl⟩⟩

end Narrow

/-- A frame of five bytes gets through a source of six. One of seven bytes fills the source, and the
pipe fails. -/
theorem frames_fit_or_starve_narrow :
    ∃ w₁ w₂ w₃, Narrow.make Narrow.world = .ok (.ok 0) w₁ ∧
      Narrow.work [Narrow.feed [0, 0, 0, 1, 7]] w₁ = .ok () w₂ ∧
      (w₂.pipes.get 0).failure = none ∧
      Narrow.work [Narrow.feed [0, 0, 0, 1, 7], Narrow.feed [0, 0, 0, 3, 1, 2, 3]] w₁ =
        .ok () w₃ ∧
      (w₃.pipes.get 0).failure = some .underflow := by
  have reached : Narrow.make.ends Narrow.world fun made w₁ => made.toOption = some 0 &&
      (Narrow.work [Narrow.feed [0, 0, 0, 1, 7]]).ends w₁ fun _ w₂ =>
        (Narrow.work [Narrow.feed [0, 0, 0, 1, 7], Narrow.feed [0, 0, 0, 3, 1, 2, 3]]).ends w₁
          fun _ w₃ =>
        (Ledger.of 0 w₂.journal).received = [0, 0, 0, 1, 7] ∧
          (Ledger.of 0 w₃.journal).received = [0, 0, 0, 1, 7, 0, 0, 0, 3, 1, 2] ∧
          (Ledger.of 0 w₃.journal).consumed = [0, 0, 0, 1, 7] ∧
          (w₃.pipes.get 0).source.isFull ∧ (w₃.pipes.get 0).queue.bytes < 4 := by decide +kernel
  obtain ⟨made, w₁, make, reached⟩ := ends_iff.1 reached
  obtain ⟨first, reached⟩ := Bool.and_eq_true_iff.1 reached
  obtain rfl := eq_ok_of_toOption (of_decide_eq_true first)
  obtain ⟨⟨⟩, w₂, once, reached⟩ := ends_iff.1 reached
  obtain ⟨⟨⟩, w₃, twice, reached⟩ := ends_iff.1 reached
  obtain ⟨received, arrived, front, full, low⟩ := of_decide_eq_true reached
  have passive : Narrow.owner.Passive := fun _ _ => discreet_pure _
  have free : ∀ q, .listener q ∉ (Narrow.world.rings.get 0).observers := fun q => List.not_mem_nil
  have usable : (Narrow.world.rings.get 0).ring.Valid ∧
      (Narrow.world.rings.get 0).ring.cleaned = false := ⟨Ring.valid_empty 2 .heap, rfl⟩
  have granted : Narrow.options.sourceCapacity.getD (Narrow.world.rings.get 0).ring.capacity +
      (Narrow.world.rings.get 0).ring.capacity + 2 ≤ Narrow.owner.passes := Nat.le_refl 10
  refine ⟨w₁, w₂, w₃, make, once, ?_, twice, ?_⟩
  · obtain ⟨w, ran, claim⟩ := frames_fit_or_starve passive ⟨8⟩ usable free Nat.two_pos rfl
      granted make [7] (List.forall_mem_singleton.2 (Narrow.tame_feed [0, 0, 0, 1, 7]))
    cases once.symm.trans ran
    refine ((claim [[7]] ?_ ?_).1 ?_).1
    · decide
    · rw [received]
      decide
    · decide
  · obtain ⟨w, ran, claim⟩ := frames_fit_or_starve passive ⟨8⟩ usable free Nat.two_pos rfl
      granted make [7] (List.forall_mem_cons.2 ⟨Narrow.tame_feed [0, 0, 0, 1, 7],
        List.forall_mem_singleton.2 (Narrow.tame_feed [0, 0, 0, 3, 1, 2, 3])⟩)
    cases twice.symm.trans ran
    refine ((claim [[7], [1, 2, 3]] ?_ ?_).2 [[7]] [1, 2, 3] [] rfl ?_ ?_).2.2 front full low
    · decide
    · rw [arrived]
      decide
    · decide
    · decide

end ByteFlow
