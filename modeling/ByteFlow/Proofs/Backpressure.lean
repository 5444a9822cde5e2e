/-
# How much can wait in a queue

A chunk joins the queue if it fits below the ceiling or if nothing waits. So more than the ceiling
waits only if it is a single segment, and then it is what is left of one chunk. This has to survive
the moments when the head segment is out of the queue while it is drained: handlers run then, and
may do whatever they like with the pipe, but they meet a pipe that operates and get no transform
called.

Nothing is assumed of the transform but that it uses its output through the operations that there
are. The journal has each call of it, with the input, the room that there was below the ceiling and
the chunks that were pushed. The observer of the pipe is any part of a program, at any depth and in
the middle of any call, also of one that is never going to end.
-/

import ByteFlow.Proofs.History
import ByteFlow.Proofs.Withstanding

namespace ByteFlow

/-! ## Within one call -/

namespace Output

/-- What comes of pushing so many bytes: they are accepted exactly if they fit, and if they are
refused, neither the queue nor what was emitted has changed. -/
structure Answers (o : Output) (length : Nat) (after : Output × Except Error Unit) : Prop where
  accepted_iff : after.2 = .ok () ↔ o.fits length
  refused : after.2 ≠ .ok () → after.1.queue = o.queue ∧ after.1.emitted = o.emitted

theorem answers_offer (o : Output) {chunk : Bytes} (held : chunk ≠ []) :
    o.Answers chunk.length (o.offer chunk) := by
  have some : ¬chunk.isEmpty := fun none => held (List.isEmpty_iff.1 none)
  unfold offer push
  rw [if_neg some]
  by_cases room : o.fits chunk.length
  · rw [if_pos room]
    exact ⟨⟨fun _ => room, fun _ => rfl⟩, fun refused => (refused rfl).elim⟩
  · rw [if_neg room]
    exact ⟨⟨nofun, fun fits => (room fits).elim⟩, fun _ => ⟨rfl, rfl⟩⟩

/-- The scratch buffer may have grown, also for a chunk that is refused. -/
theorem answers_pushScratch (o : Output) {length : Nat} (some : 0 < length) :
    o.Answers length (o.pushScratch length) := by
  have grown : length ≤ (o.reserve length).scratch.size := by
    unfold reserve
    split
    · rw [← Block.length_toList]
      change length ≤ (o.scratch.append _).toList.length
      rw [Block.toList_append, List.length_append, List.length_replicate, Block.length_toList]
      omega
    · rename_i enough
      exact Nat.not_lt.1 enough
  have count : ((o.reserve length).scratch.slice 0 length).toList.length = length := by
    rw [Block.toList_slice, List.drop_zero, List.length_take, Block.length_toList]
    omega
  have same : (o.reserve length).queue = o.queue ∧ (o.reserve length).pushed = o.pushed ∧
      (o.reserve length).ceiling = o.ceiling := by
    unfold reserve
    split <;> exact ⟨rfl, rfl, rfl⟩
  have answers := (o.reserve length).answers_offer (List.length_pos_iff.1 (count.symm ▸ some))
  rw [count] at answers
  unfold pushScratch
  refine ⟨answers.accepted_iff.trans ?_, fun refused => ?_⟩
  · unfold fits headroom
    rw [same.1, same.2.2]
  · obtain ⟨queue, emitted⟩ := answers.refused refused
    refine ⟨queue.trans same.1, emitted.trans ?_⟩
    unfold Output.emitted
    rw [same.2.1]

theorem ceiling_of_uses {o used : Output} (h : o.Uses used) : used.ceiling = o.ceiling := by
  induction h with
  | refl => rfl
  | push _ accepted ih =>
      rcases push_eq_ok accepted with ⟨_, rfl⟩ | ⟨_, rfl⟩ <;> exact ih
  | scratch _ _ ih => exact ih
  | note _ _ ih => exact ih

/-- What was emitted is what the queue has grown by. -/
theorem bytes_of_uses {queue : Queue} {scratch : Block} {ceiling : Nat} {used : Output}
    (h : (Output.new queue scratch ceiling).Uses used) :
    used.queue.bytes = queue.bytes + used.emitted := by
  induction h with
  | refl => rfl
  | @push before _ _ chunk accepted ih =>
      rcases push_eq_ok accepted with ⟨_, rfl⟩ | ⟨_, rfl⟩
      · exact ih
      · change (before.queue.pushBack (.wrap chunk)).bytes =
          queue.bytes + (chunk.length + before.emitted)
        rw [Queue.bytes_pushBack, ih, Nat.add_assoc, Nat.add_comm before.emitted]
        rfl
  | scratch _ _ ih => exact ih
  | note _ _ ih => exact ih

/-- A chunk that is accepted joins a queue in which there is room below the ceiling, or one that
was empty, in which it is the only segment then. -/
theorem waiting_of_push {o pushed : Output} {chunk : Bytes} (valid : o.queue.Valid)
    (held : chunk ≠ []) (accepted : o.push chunk = .ok pushed) :
    pushed.queue.bytes ≤ o.ceiling ∨
      (pushed.queue.segments.length = 1 ∧ pushed.queue.bytes = chunk.length) := by
  have offered : (o.offer chunk).2 = .ok () := by
    unfold offer
    rw [accepted]
  have room := (o.answers_offer held).accepted_iff.1 offered
  obtain ⟨none, _⟩ | ⟨_, rfl⟩ := push_eq_ok accepted
  · exact (held none).elim
  · have some := List.length_pos_iff.2 held
    have grown : (o.queue.pushBack (.wrap chunk)).bytes = o.queue.bytes + chunk.length :=
      Queue.bytes_pushBack _ _
    unfold fits headroom at room
    rcases Bool.or_eq_true_iff.1 room with empty | room
    · right
      have kept : Queue.kept (.wrap chunk) = [.wrap chunk] :=
        if_neg fun none => held (List.length_eq_zero_iff.1 (beq_iff_eq.1 none))
      have nothing := (Queue.isEmpty_iff_bytes_eq_zero valid).1 empty
      refine ⟨?_, ?_⟩
      · rw [Queue.segments_pushBack, Queue.isEmpty_iff_segments_eq_nil.1 empty, kept]
        rfl
      · rw [grown, nothing, Nat.zero_add]
    · left
      have le : chunk.length ≤ o.ceiling - o.queue.bytes := of_decide_eq_true room
      change (o.queue.pushBack (.wrap chunk)).bytes ≤ o.ceiling
      omega

/-- However an output is used, at most the ceiling waits, or a single chunk. -/
theorem waiting_of_uses {queue : Queue} {scratch : Block} {ceiling : Nat} {used : Output}
    (h : (Output.new queue scratch ceiling).Uses used) (below : queue.bytes ≤ ceiling)
    (sound : queue.Sound) :
    used.queue.bytes ≤ ceiling ∨
      (used.queue.segments.length = 1 ∧
        ∃ chunk ∈ used.pushed, used.queue.bytes = chunk.length) := by
  induction h with
  | refl => exact .inl below
  | @push before _ uses chunk accepted ih =>
      rcases push_eq_ok accepted with ⟨_, rfl⟩ | ⟨held, rfl⟩
      · exact ih
      · have waiting := waiting_of_push (uses.sound sound).toValid held accepted
        rw [ceiling_of_uses uses] at waiting
        exact waiting.imp_right fun single => ⟨single.1, chunk, List.mem_cons_self, single.2⟩
  | scratch _ _ ih => exact ih
  | note _ _ ih => exact ih

end Output

/-! ## What is seen of a pipe -/

/-- A transform is called only on input that is not empty, and with the queue below the ceiling. -/
def Event.IsDue : Event → Prop
  | .transformed _ input headroom _ _ _ | .stopped _ input headroom _ =>
    input.toList ≠ [] ∧ 0 < headroom
  | _ => True

/-- So many bytes may wait: they are within the ceiling, or no more than a single chunk that one of
the calls has pushed. -/
def MayWait (ceiling : Nat) (calls : List Event) (bytes : Nat) : Prop :=
  bytes ≤ ceiling ∨ ∃ call ∈ calls, ∃ chunk ∈ call.chunks, bytes ≤ chunk.length

theorem MayWait.of_le {ceiling bytes fewer : Nat} {calls : List Event}
    (may : MayWait ceiling calls bytes) (le : fewer ≤ bytes) : MayWait ceiling calls fewer := by
  refine may.imp (Nat.le_trans le) ?_
  rintro ⟨call, made, chunk, pushed, bound⟩
  exact ⟨call, made, chunk, pushed, Nat.le_trans le bound⟩

variable {τ ω α : Type} {ceiling : Nat}

/-- After these calls of the transform, more than the ceiling waits only as one segment, and never
more than the largest chunk; and the calls were due. -/
structure Pipe.Bounded (ceiling : Nat) (calls : List Event) (pipe : Pipe τ) : Prop where
  single : ceiling < pipe.queue.bytes → pipe.queue.length = 1
  size : MayWait ceiling calls pipe.queue.bytes
  due : ∀ call ∈ calls, call.IsDue

/-- What stays true of a pipe while it is used, with `flight` bytes of the head segment out of the
queue. Only a pipe that operates has a flight, perhaps of no bytes. -/
structure Guard (ceiling : Nat) (calls : List Event) (flight : Option Nat) (options : PipeOptions)
    (operating : Bool) (source : Ring) (queue : Queue) : Prop where
  ceiling_eq : options.ceiling = ceiling
  operating_eq : operating = flight.isSome
  source_valid : source.Valid
  queue_sound : queue.Sound
  single : ceiling < flight.getD 0 + queue.bytes →
    queue.segments.length + min 1 (flight.getD 0) ≤ 1
  size : MayWait ceiling calls (flight.getD 0 + queue.bytes)
  due : ∀ call ∈ calls, call.IsDue

/-- The guard, said of a pipe. -/
abbrev Pipe.Guarded (ceiling : Nat) (calls : List Event) (flight : Option Nat) (pipe : Pipe τ) :
    Prop :=
  Guard ceiling calls flight pipe.options pipe.operating pipe.source pipe.queue

namespace Pipe.Guarded

variable {calls : List Event} {flight : Option Nat} {pipe : Pipe τ}

/-- A guarded pipe looks as it should, also while a segment is out of its queue. -/
theorem bounded (h : pipe.Guarded ceiling calls flight) : pipe.Bounded ceiling calls where
  single := by
    intro above
    have waiting : pipe.queue.segments ≠ [] := by
      intro none
      have zero := (Queue.isEmpty_iff_bytes_eq_zero h.queue_sound.toValid).1
        (Queue.isEmpty_iff_segments_eq_nil.2 none)
      omega
    have some := List.length_pos_iff.2 waiting
    have single := h.single (by omega)
    rw [Queue.length_eq_length_segments]
    omega
  size := h.size.of_le (Nat.le_add_left _ _)
  due := h.due

/-- Bytes that were on their way may be lost, and the pipe may stop to operate. -/
theorem lose (h : pipe.Guarded ceiling calls flight) {flight' : Option Nat} {operating : Bool}
    (none : flight'.getD 0 = 0) (operating_eq : operating = flight'.isSome) :
    Guard ceiling calls flight' pipe.options operating pipe.source pipe.queue where
  ceiling_eq := h.ceiling_eq
  operating_eq := operating_eq
  source_valid := h.source_valid
  queue_sound := h.queue_sound
  single above := by
    rw [none, Nat.zero_add] at above
    have single := h.single (by omega)
    rw [none]
    omega
  size := h.size.of_le (by omega)
  due := h.due

/-- A pipe that does not operate has nothing on its way, and may begin to. -/
theorem start (h : pipe.Guarded ceiling calls none) :
    Guard ceiling calls (some 0) pipe.options true pipe.source pipe.queue :=
  ⟨h.ceiling_eq, rfl, h.source_valid, h.queue_sound, h.single, h.size, h.due⟩

/-- The head segment leaves the queue and is on its way. -/
theorem take_out (h : pipe.Guarded ceiling calls (some 0)) {segment : Ring} {rest : Queue}
    (popped : pipe.queue.popFront = some (segment, rest)) :
    Guard ceiling calls (some segment.used) pipe.options pipe.operating pipe.source rest := by
  obtain ⟨_, held, _, counted⟩ := h.queue_sound.toValid.popFront popped
  have waiting := congrArg List.length (Queue.popFront_eq_some popped).1
  have single := h.single
  simp only [Option.getD_some, List.length_cons] at *
  refine ⟨h.ceiling_eq, h.operating_eq, h.source_valid, (h.queue_sound.popFront popped).2.2,
    fun above => ?_, h.size.of_le ?_, h.due⟩
  · rw [Option.getD_some] at above ⊢
    have alone := single (by omega)
    omega
  · rw [Option.getD_some, Option.getD_some]
    omega

/-- What is left of the segment goes back in front. -/
theorem put_back {used : Nat} (h : pipe.Guarded ceiling calls (some used)) {segment : Ring}
    (valid : segment.Valid) (piece : segment.isContiguous ∧ segment.cleaned = false)
    (le : segment.used ≤ used) :
    Guard ceiling calls (some 0) pipe.options pipe.operating pipe.source
      (pipe.queue.pushFront segment) := by
  have single := h.single
  have counted := Queue.bytes_pushFront pipe.queue segment
  simp only [Option.getD_some] at *
  refine ⟨h.ceiling_eq, h.operating_eq, h.source_valid, h.queue_sound.pushFront valid piece,
    fun above => ?_, h.size.of_le ?_, h.due⟩
  · rw [Option.getD_some] at above ⊢
    have alone := single (by omega)
    rw [Queue.segments_pushFront, List.length_append, Queue.kept]
    split
    · rw [List.length_nil]
      omega
    · rename_i held
      have some : segment.used ≠ 0 := fun none => held (beq_iff_eq.2 none)
      rw [List.length_singleton]
      omega
  · rw [Option.getD_some, Option.getD_some]
    omega

/-- A pipe that is ready may call its transform. -/
theorem advance [Transform τ] [Transform.Proper τ] (h : pipe.Guarded ceiling calls (some 0))
    (ready : pipe.isReady) {p : PipeId} {call : Event} (made : pipe.Calls p call) :
    (pipe.advance p).pipe.Guarded ceiling (call :: calls) (some 0) := by
  obtain ⟨held, below⟩ := Bool.and_eq_true_iff.1 ready
  have below : pipe.queue.bytes < ceiling := h.ceiling_eq ▸ of_decide_eq_true below
  have input : pipe.source.readable.toList ≠ [] := by
    intro none
    have zero := Ring.length_readable h.source_valid
    rw [none] at zero
    have empty := Ring.used_eq_zero_of_usedToEnd h.source_valid zero.symm
    rw [Ring.isEmpty, empty] at held
    cases held
  have due : call.IsDue := by
    have room := Nat.sub_pos_of_lt below
    rw [← h.ceiling_eq] at room
    cases made <;> exact ⟨input, room⟩
  have uses : (Output.new pipe.queue pipe.scratch pipe.options.ceiling).Uses pipe.called.output :=
    Transform.Proper.uses _ _ _
  have waiting := Output.waiting_of_uses uses (h.ceiling_eq ▸ Nat.le_of_lt below) h.queue_sound
  rw [h.ceiling_eq] at waiting
  obtain ⟨source, pending, valid, eq⟩ := advance_eq p h.source_valid
  rw [eq]
  refine ⟨h.ceiling_eq, h.operating_eq, valid, uses.sound h.queue_sound, fun above => ?_, ?_,
    List.forall_mem_cons.2 ⟨due, h.due⟩⟩
  · rw [Option.getD_some, Nat.zero_add] at above
    rw [Option.getD_some]
    rcases waiting with low | ⟨single, _⟩
    · exact (Nat.not_lt.2 low above).elim
    · exact Nat.le_of_eq single
  · rw [Option.getD_some, Nat.zero_add]
    refine waiting.imp_right ?_
    rintro ⟨_, chunk, member, count⟩
    have pushed : chunk ∈ call.chunks := by
      cases made <;> exact List.mem_reverse.2 member
    exact ⟨call, List.mem_cons_self, chunk, pushed, Nat.le_of_eq count⟩

/-- To clean a pipe drops all that waits. -/
theorem clean (h : pipe.Guarded ceiling calls flight) :
    Guard ceiling calls flight pipe.options pipe.operating pipe.source.clean pipe.queue.clear where
  ceiling_eq := h.ceiling_eq
  operating_eq := h.operating_eq
  source_valid := h.source_valid.clean
  queue_sound := Queue.sound_empty
  single _ := by
    change 0 + min 1 _ ≤ 1
    omega
  size := h.size.of_le (Nat.le_add_right _ _)
  due := h.due

end Pipe.Guarded

/-! ## What a world keeps -/

section Watched

open Machine

/-- Pipe `p` is guarded, and whatever programs have `seen` is as it should be. -/
structure Watched [Inhabited τ] (ceiling : Nat) (p : PipeId) (seen : ω → Prop)
    (flight : Option Nat) (w : World τ ω) : Prop where
  inUse : p < w.pipes.next
  guarded : (w.pipes.get p).Guarded ceiling (calls p w.journal) flight
  seen : seen w.owner

/-- What pipe `p` has on its way while pipe `q` operates and has `count` bytes on their way. -/
def aboard (p q : PipeId) (count : Nat) (flight : Option Nat) : Option Nat :=
  if q = p then some count else flight

variable [Inhabited τ] {p : PipeId} {seen : ω → Prop}

namespace Watched

variable {flight flight' : Option Nat} {w : World τ ω} {q : PipeId}

theorem set_pipe (h : Watched ceiling p seen flight w) {pipe : Pipe τ}
    (own : q = p → pipe.Guarded ceiling (calls p w.journal) flight')
    (other : q ≠ p → flight' = flight) :
    Watched ceiling p seen flight' { w with pipes := w.pipes.set q pipe } := by
  by_cases same : q = p
  · subst same
    obtain ⟨inUse, guarded⟩ := Table.set_self (t := w.pipes) (i := q) (own rfl)
    exact ⟨inUse, guarded, h.seen⟩
  · obtain rfl := other same
    obtain ⟨inUse, guarded⟩ := Table.set_other ⟨h.inUse, h.guarded⟩ same pipe
    exact ⟨inUse, guarded, h.seen⟩

/-- Bytes that were on their way may be lost. -/
theorem land {count : Nat} (h : Watched ceiling p seen (aboard p q count flight) w) :
    Watched ceiling p seen (aboard p q 0 flight) w := by
  by_cases own : q = p
  · unfold aboard at h ⊢
    rw [if_pos own] at h ⊢
    exact ⟨h.inUse, h.guarded.lose rfl h.guarded.operating_eq, h.seen⟩
  · unfold aboard at h ⊢
    rw [if_neg own] at h ⊢
    exact h

theorem guarded_aboard {count : Nat} (h : Watched ceiling p seen (aboard p q count flight) w)
    (own : q = p) : (w.pipes.get q).Guarded ceiling (calls p w.journal) (some count) := by
  have guarded := h.guarded
  unfold aboard at guarded
  rw [if_pos own] at guarded
  exact own ▸ guarded

/-- While pipe `q` operates, a change of the pipe is one of what it has on its way. -/
theorem set_aboard {count count' : Nat} (h : Watched ceiling p seen (aboard p q count flight) w)
    {pipe : Pipe τ} (own : q = p → pipe.Guarded ceiling (calls p w.journal) (some count')) :
    Watched ceiling p seen (aboard p q count' flight)
      { w with pipes := w.pipes.set q pipe } := by
  apply h.set_pipe
  · intro same
    unfold aboard
    rw [if_pos same]
    exact own same
  · intro other
    unfold aboard
    rw [if_neg other, if_neg other]

/-- A change that the guard does not see. -/
theorem modifyPipe {f : Pipe τ → Pipe τ}
    (same : ∀ calls pipe, Pipe.Guarded ceiling calls flight pipe →
      (f pipe).Guarded ceiling calls flight) :
    Preserves (Watched (τ := τ) ceiling p seen flight) (modifyPipe q f) := by
  refine upholds_modifyPipe fun w h => h.set_pipe ?_ fun _ => rfl
  rintro rfl
  exact same _ _ h.guarded

theorem set_journal (h : Watched ceiling p seen flight w) {journal : List Event}
    (same : calls p journal = calls p w.journal) :
    Watched ceiling p seen flight { w with journal } :=
  ⟨h.inUse, same ▸ h.guarded, h.seen⟩

/-- An event that is not a call makes no difference. -/
theorem record {event : Event} (still : event.isCall = false) (opens : event.opens p = false) :
    Preserves (Watched (τ := τ) ceiling p seen flight) (record event) :=
  fun _ h => h.set_journal (filter_history_of_still still opens)

theorem note {event : Event} (note : event.IsNote) :
    Preserves (Watched (τ := τ) ceiling p seen flight) (Machine.record event) :=
  record note.isCall (note.opens p)

theorem stable : Stable (Watched (τ := τ) ceiling p seen flight) where
  log _ := record rfl rfl
  announce _ _ announces := note announces.isNote
  count _ _ := modifyPipe fun _ _ => id
  detach _ _ := fun _ h => ⟨h.1, h.2, h.3⟩

theorem admits :
    Admits fun _ (m : Machine τ ω _) => Preserves (Watched ceiling p seen flight) m where
  toHosts := stable.enters.toHosts
  shared _ _ := fun _ h => ⟨h.1, h.2, h.3⟩
  updated _ _ := fun _ h => ⟨h.1, h.2, h.3⟩
  delivered _ _ := record rfl rfl
  called := stable.during

section Reacting

variable {o : Owner τ ω}
  (reacts : ∀ flight handler edge,
    Preserves (Watched ceiling p seen flight) (o.react handler edge))

include reacts

variable [Transform τ]

omit reacts in
/-- The call that an advance makes is one of the pipe, or none of it. -/
theorem advance [Transform.Proper τ] (h : Watched ceiling p seen (aboard p q 0 flight) w)
    (ready : (w.pipes.get q).isReady) :
    Watched ceiling p seen (aboard p q 0 flight) { w with
      pipes := w.pipes.set q ((w.pipes.get q).advance q).pipe
      journal := ((w.pipes.get q).advance q).events ++ w.journal } := by
  by_cases own : q = p
  · subst own
    obtain ⟨call, added, made⟩ := exists_calls_advance q (w.pipes.get q) w.journal
    have guarded := (h.guarded_aboard rfl).advance ready made
    rw [← added] at guarded
    obtain ⟨inUse, guarded⟩ := Table.set_self (t := w.pipes) (i := q) guarded
    refine ⟨inUse, ?_, h.seen⟩
    rw [aboard, if_pos rfl]
    exact guarded
  · have same : calls p (((w.pipes.get q).advance q).events ++ w.journal) = calls p w.journal :=
      calls_advance_elsewhere own (w.pipes.get q)
    exact (h.set_aboard fun same => (own same).elim).set_journal same

/-- While the head segment is out of the queue, it is on its way; all that is needed of what is left
of it is that it is not more than before. -/
theorem weathers [Transform.Proper τ] :
    Weathers o q (Watched ceiling p seen (aboard p q 0 flight))
      (Watched ceiling p seen (aboard p q 0 flight)) where
  halts _ := id
  log := stable.log
  pours w segment rest h popped room := by
    have taken_out : Watched ceiling p seen (aboard p q segment.used flight)
        { w with pipes := w.pipes.set q { w.pipes.get q with queue := rest } } :=
      h.set_aboard fun own => (h.guarded_aboard own).take_out popped
    have stores (data : Bytes) : Preserves (Watched ceiling p seen (aboard p q segment.used flight))
        ((SharedRing.sink o (w.pipes.get q).destination).write data) :=
      admits.store (reacts _) _ data
    have wrote : Upholds (Watched ceiling p seen (aboard p q segment.used flight))
        (Watched ceiling p seen (aboard p q segment.used flight))
        (segment.writeTo (SharedRing.sink o (w.pipes.get q).destination)
          (w.rings.get (w.pipes.get q).destination).ring.free)
        fun outflow w => Watched ceiling p seen (aboard p q segment.used flight) w ∧
          (q = p → outflow.ring.used ≤ segment.used ∧ outflow.ring.Valid ∧
            outflow.ring.isContiguous ∧ outflow.ring.cleaned = false) := by
      by_cases own : q = p
      · obtain ⟨⟨valid, held⟩, ⟨piece, intact⟩, _⟩ :=
          (h.guarded_aboard own).queue_sound.popFront popped
        refine (upholds_writeTo_piece valid held piece intact room stores).of_imp (fun _ => id) ?_
        exact fun outflow w after => ⟨after.1, fun _ => after.2⟩
      · refine (Ring.closed_writeTo (closed_preserves _) stores segment _).of_imp (fun _ => id) ?_
        exact fun outflow w after => ⟨after, fun same => (own same).elim⟩
    refine (Upholds.here taken_out (wrote.halt_imp fun _ h => h.land)).of_imp (fun _ => id) ?_
    rintro outflow w ⟨h, left⟩
    refine ⟨fun _ => h.land, fun _ => h.set_aboard fun own => ?_⟩
    obtain ⟨le, valid, piece⟩ := left own
    exact (h.guarded_aboard own).put_back valid piece le
  mark _ h := h.set_aboard fun own => h.guarded_aboard own
  advance _ h ready := h.advance ready

omit [Transform τ] reacts in
/-- When a pipe stops to operate, nothing of it is on its way any more. -/
theorem upholds_release (idle : q = p → flight = none) :
    Upholds (Watched (τ := τ) ceiling p seen flight) (Watched ceiling p seen (aboard p q 0 flight))
      (Pipe.release q) fun _ => Watched ceiling p seen flight := by
  refine .pointwise fun w h => .at_getPipe ?_
  have stopped : Watched ceiling p seen flight { w with
      pipes := w.pipes.set q { w.pipes.get q with
        operating := false, pendingWritable := false } } := by
    apply h.set_pipe
    · intro own
      rw [idle own]
      exact (h.guarded_aboard own).lose rfl rfl
    · intro other
      exact (if_neg other).symm
  let last : Event := .ended q (w.pipes.get q).pendingWritable (w.pipes.get q).handlers
  have same : calls p (last :: w.journal) = calls p w.journal := filter_history_of_still rfl rfl
  exact .at_modifyPipe (.at_record (.here (stopped.set_journal same) (preserves_pure _)))

variable [Transform.Proper τ]

theorem operate : Preserves (Watched ceiling p seen (aboard p q 0 flight)) (Pipe.operate o q) := by
  refine (weathers reacts).operate fun e => ?_
  exact admits.fail (fun _ => modifyPipe fun _ _ => id)
    (fun _ _ announces => note announces.isNote) (reacts _) e

theorem run (q : PipeId) : Preserves (Watched ceiling p seen flight) (Pipe.run o q) := by
  refine admits.called (.pointwise fun w h => .at_getPipe ?_) q
  split
  · exact .here h (record rfl rfl)
  · rename_i resting
    have idle : q = p → flight = none := by
      rintro rfl
      have operating := h.guarded.operating_eq
      rw [Bool.eq_false_iff.2 resting] at operating
      exact Option.not_isSome_iff_eq_none.1 (Bool.eq_false_iff.1 operating.symm)
    have started : Watched ceiling p seen (aboard p q 0 flight)
        { w with pipes := w.pipes.set q { w.pipes.get q with operating := true } } := by
      apply h.set_pipe
      · rintro rfl
        have guarded := h.guarded
        rw [idle rfl] at guarded
        unfold aboard
        rw [if_pos rfl]
        exact guarded.start
      · exact fun other => if_neg other
    have begun : Watched ceiling p seen (aboard p q 0 flight) { w with
        pipes := w.pipes.set q { w.pipes.get q with operating := true }
        journal := .started q :: w.journal } :=
      started.set_journal (filter_history_of_still rfl rfl)
    refine .at_modifyPipe (.at_record (.here begun ?_))
    refine Upholds.bind ((operate reacts).onHalt (upholds_release idle)) fun _ => ?_
    refine Upholds.bind (upholds_release idle) fun made_room => ?_
    split
    · exact admits.emit (reacts _) fun _ announces => note announces.isNote
    · exact preserves_pure _

theorem feed {source : Source (Machine τ ω)}
    (reads : ∀ wanted, Preserves (Watched ceiling p seen flight) (source.read wanted))
    (ends : Preserves (Watched ceiling p seen flight) source.isEnded) (q : PipeId) :
    Preserves (Watched ceiling p seen flight) (Pipe.storeFrom o q source) := by
  refine admits.called ?_ q
  apply (admits.failureCheck q).bind
  intro failed
  cases failed with
  | error e => exact preserves_pure _
  | ok =>
      refine .pointwise fun w h => .at_getPipe ?_
      have fills := upholds_storeFrom reads ends (w.pipes.get q).source
      have valid (own : q = p) : (w.pipes.get q).source.Valid := own ▸ h.guarded.source_valid
      refine Upholds.bind (.here h fills) fun intake => ?_
      refine .pointwise fun w ⟨h, fills⟩ => ?_
      have stored : Watched ceiling p seen flight
          { w with pipes := w.pipes.set q { w.pipes.get q with source := intake.ring } } := by
        refine h.set_pipe (fun own => ?_) fun _ => rfl
        have guarded := h.guarded
        rw [← own] at guarded ⊢
        exact { guarded with source_valid := (fills (valid own)).valid }
      refine .at_modifyPipe (.here stored ?_)
      refine Upholds.bind (record rfl rfl) fun _ => ?_
      exact admits.onIntake (run reacts q) intake.result

theorem switch (q : PipeId) (candidate : RingId) :
    Preserves (Watched ceiling p seen flight) (Pipe.switchTo o q candidate) := by
  refine admits.called ?_ q
  apply (admits.getPipe q).bind
  intro pipe
  apply (admits.getRing candidate).bind
  intro ring
  apply (admits.getRing pipe.destination).bind
  intro current
  split
  · exact preserves_pure _
  · apply (admits.shared _ _).bind
    intro _
    have moved : Preserves (Watched (τ := τ) ceiling p seen flight)
        (Machine.modifyPipe q fun pipe => { pipe with destination := candidate }) :=
      modifyPipe fun _ _ => id
    apply moved.bind
    intro _
    refine Upholds.bind (record rfl rfl) fun _ => ?_
    apply (admits.shared _ _).bind
    intro _
    refine Upholds.bind (record rfl rfl) fun _ => ?_
    exact (run reacts q).bind fun _ => preserves_pure _

theorem empty {sink : Sink (Machine τ ω)}
    (writes : ∀ offered, Preserves (Watched ceiling p seen flight) (sink.write offered))
    (q : PipeId) (max : Nat) :
    Preserves (Watched ceiling p seen flight) (Pipe.writeTo o q sink max) := by
  refine admits.called ((admits.getPipe q).bind fun pipe => ?_) q
  exact admits.pour (reacts _) (run reacts) _ writes max

omit [Transform τ] [Transform.Proper τ] reacts in
theorem clear (q : PipeId) :
    Preserves (Watched (τ := τ) ceiling p seen flight) (Pipe.clear (ω := ω) q) := by
  apply (admits.getPipe q).bind
  intro pipe
  exact (admits.getRing _).bind fun _ => admits.shared _ _

omit [Transform τ] [Transform.Proper τ] reacts in
theorem clean (q : PipeId) :
    Preserves (Watched (τ := τ) ceiling p seen flight) (Pipe.clean (ω := ω) q) := by
  have cleaned : Preserves (Watched (τ := τ) ceiling p seen flight)
      (Machine.modifyPipe q fun pipe =>
        { pipe with queue := pipe.queue.clear, scratch := .empty, source := pipe.source.clean }) :=
    modifyPipe fun _ _ guarded => guarded.clean
  apply cleaned.bind
  intro _
  apply (admits.getPipe q).bind
  intro pipe
  have freed : Preserves (Watched (τ := τ) ceiling p seen flight)
      (SharedRing.clean pipe.destination) :=
    (admits.getRing _).bind fun _ => admits.shared _ _
  apply freed.bind
  intro _
  exact (admits.getPipe q).bind fun _ => record rfl rfl

/-- Every call keeps watch, on whichever pipe or ring. -/
theorem perform {c : Call τ ω α}
    (reads : ∀ source, c.source? = some source →
      ∀ wanted, Preserves (Watched ceiling p seen flight) (source.read wanted))
    (ended : ∀ source, c.source? = some source →
      Preserves (Watched ceiling p seen flight) source.isEnded)
    (writes : ∀ sink, c.sink? = some sink →
      ∀ offered, Preserves (Watched ceiling p seen flight) (sink.write offered)) :
    Preserves (Watched ceiling p seen flight) (c.perform o) := by
  cases c with
  | feed q source => exact feed reacts (reads source rfl) (ended source rfl) q
  | run q => exact run reacts q
  | empty q sink max => exact empty reacts (writes sink rfl) q max
  | switch q candidate => exact switch reacts q candidate
  | clear q => exact clear q
  | clean q => exact clean q
  | store r data => exact admits.store (reacts _) r data
  | fill r source => exact admits.fill (reacts _) r (reads source rfl) (ended source rfl)
  | pour r sink max => exact admits.pour (reacts _) (run reacts) r (writes sink rfl) max

end Reacting

/-- A new pipe has nothing in its queue. -/
theorem opened (w : World τ ω) (direction : Direction) (d : RingId) (transform : τ)
    (options : PipeOptions) (capacity : Nat) (ok : seen w.owner) :
    Watched options.ceiling w.pipes.next seen none
      (w.opened direction d transform options capacity) := by
  have guarded : (Pipe.new direction options (.empty capacity options.sourceRegion) transform
      d).Guarded options.ceiling [] none :=
    ⟨rfl, rfl, Ring.valid_empty _ _, Queue.sound_empty, fun above => (Nat.not_lt_zero _ above).elim,
      .inl (Nat.zero_le _), List.forall_mem_nil _⟩
  obtain ⟨inUse, guarded⟩ := Table.set_self (t := w.pipes) (i := w.pipes.next) guarded
  have uncalled : calls w.pipes.next
      (w.opened direction d transform options capacity).journal = [] :=
    congrArg (List.filter Event.isCall) (history_of_opened _ _)
  exact ⟨inUse, uncalled ▸ guarded, ok⟩

theorem ensures_create {d : RingId} {direction : Direction} {transform : τ}
    {options : PipeOptions} {w : World τ ω} (ok : seen w.owner) :
    Ensures (· = w) (Pipe.create direction d transform options) fun made w' =>
      ∀ p, made = .ok p → Watched options.ceiling p seen none w' := by
  refine Pipe.ensures_create (fun e => nofun) ?_
  rintro capacity entry _ _ _ _ ⟨⟩
  exact (opened w direction d transform options capacity ok).set_journal
    (filter_history_of_still rfl rfl)

end Watched

/-- The rules for programs that may do anything with pipes and rings, pipe `p` among them, and that
look at the pipe now and then: what they have seen stays as it should be if what they see is.
Between calls, handlers of the pipe may come and go, and its owner may drop it. -/
def Rules.watching (ceiling : Nat) (p : PipeId) (seen : ω → Prop) : Rules τ ω where
  permits _ := True
  ignores m := ∀ w, p < w.pipes.next →
    (w.pipes.get p).Bounded ceiling (calls p w.journal) → seen w.owner →
    p < (m.left w).pipes.next ∧
      (∃ handlers held, (m.left w).pipes.get p = { w.pipes.get p with handlers, held }) ∧
      calls p (m.left w).journal = calls p w.journal ∧ seen (m.left w).owner

theorem Watched.preserves [Transform τ] [Transform.Proper τ] {m : Machine τ ω α}
    (conduct : Conduct (Rules.watching ceiling p seen) m) (flight : Option Nat) :
    Preserves (Watched ceiling p seen flight) m := by
  refine conduct.has (K := fun flight _ m => Preserves (Watched ceiling p seen flight) m)
    (fun _ => closed_preserves _) (fun _ _ _ => upholds_throw fun _ => id) ?_ ?_ flight
  · intro β m ignores flight
    refine preserves_iff.2 fun w h => ?_
    obtain ⟨inUse, ⟨handlers, held, same⟩, uncalled, ok⟩ :=
      ignores w h.inUse h.guarded.bounded h.seen
    refine ⟨inUse, ?_, ok⟩
    rw [same, uncalled]
    exact h.guarded
  · intro β o c _ reads ended writes reacts flight
    exact Watched.perform reacts (fun source eq wanted => reads source eq wanted flight)
      (fun source eq => ended source eq flight) fun sink eq offered => writes sink eq offered flight

/-- However a pipe with a proper transform is used, more than the ceiling waits only as a single
segment, and never more than the largest chunk that the transform has pushed in one of its calls;
and it was called only on input that is not empty and with the queue below the ceiling. This holds
after any programs that run one after the other, each to its end or to a halt, and wherever they
look in between, inside every edge.

Within one call of a transform, in whatever way it uses its output, a chunk that is not empty is
accepted exactly if it fits, a chunk that is refused changes neither the queue nor what was emitted,
and what was emitted is what the queue has grown by. -/
theorem queue_bounded [Transform τ] [Transform.Proper τ] {d : RingId} {direction : Direction}
    {transform : τ} {options : PipeOptions} (seen : ω → Prop) {w₀ w₁ : World τ ω} {p : PipeId}
    {programs : List (Machine τ ω Unit)} (ok : seen w₀.owner)
    (made : Pipe.create direction d transform options w₀ = .ok (.ok p) w₁)
    (conduct : ∀ m ∈ programs, Conduct (Rules.watching options.ceiling p seen) m) :
    let w₂ := programs.foldl (fun w m => m.left w) w₁
    ((w₂.pipes.get p).Bounded options.ceiling (calls p w₂.journal) ∧ seen w₂.owner) ∧
      ∀ (queue : Queue) (scratch : Block) (ceiling : Nat) (used : Output),
        (Output.new queue scratch ceiling).Uses used →
          used.queue.bytes = queue.bytes + used.emitted ∧
          (∀ chunk, chunk ≠ [] → used.Answers chunk.length (used.offer chunk)) ∧
          ∀ length, 0 < length → used.Answers length (used.pushScratch length) := by
  have start : Watched options.ceiling p seen none w₁ := Watched.ensures_create ok rfl made p rfl
  have watched : Watched options.ceiling p seen none (programs.foldl (fun w m => m.left w) w₁) := by
    clear made
    induction programs generalizing w₁ with
    | nil => exact start
    | cons m programs ih =>
        obtain ⟨first, others⟩ := List.forall_mem_cons.1 conduct
        exact ih others (preserves_iff.1 (Watched.preserves first none) w₁ start)
  refine ⟨⟨watched.guarded.bounded, watched.seen⟩, fun queue scratch ceiling used uses => ?_⟩
  exact ⟨Output.bytes_of_uses uses, fun _ held => used.answers_offer held,
    fun _ some => used.answers_pushScratch some⟩

end Watched

namespace Flood

open Machine

/-- A transform that offers its input twice over and then once more, and does not mind a refusal. -/
inductive Glutton where
  | hungry
deriving Inhabited

instance : Transform Glutton where
  call t input o := ⟨t, ((o.offer (input ++ input)).1.offer input).1, .ok (.done input.length)⟩

instance : Transform.Proper Glutton where
  uses _ _ o := (Output.uses_offer o _).trans (Output.uses_offer _ _)

/-- A handler that looks at the pipe and remembers whether all was well. -/
def look : Machine Glutton Bool Unit :=
  modify fun w =>
    let queue := (w.pipes.get 0).queue
    { w with owner := w.owner && (queue.bytes ≤ 4 || queue.length = 1) }

/-- A world with one ring of one byte, which the handler watches. -/
def world : World Glutton Bool := ⟨⟨[⟨.empty 1 .heap, [.handler 0]⟩]⟩, .empty, [], true⟩

def options : PipeOptions := ⟨4, some 3, .heap⟩

/-- A source that has three bytes ready whenever it is read. -/
def source : Source (Machine Glutton Bool) where
  read wanted := pure (.ok ([1, 2, 3].take wanted))
  isEnded := pure false

def make : Machine Glutton Bool (Except Error PipeId) := Pipe.create .wrap 0 .hungry options

/-- Stores three bytes, of which six are made; one of those goes into the ring. -/
def run : Machine Glutton Bool Unit := do
  let _ ← Pipe.storeFrom ⟨fun _ _ => look, 8⟩ 0 source

theorem conduct_run : Conduct (Rules.watching 4 0 (· = true)) run := by
  refine .andThen ?_ fun _ => .gives _
  refine .feed 0 (fun _ _ => .aside ?_) trivial (fun _ => .gives _) (.gives _)
  intro w inUse bounded ok
  refine ⟨inUse, ⟨_, _, rfl⟩, rfl, ?_⟩
  have well : ((w.pipes.get 0).queue.bytes ≤ 4 || (w.pipes.get 0).queue.length = 1) = true := by
    by_cases low : (w.pipes.get 0).queue.bytes ≤ 4
    · rw [decide_eq_true low, Bool.true_or]
    · rw [decide_eq_true (bounded.single (Nat.not_le.1 low)), Bool.or_true]
  change (w.owner && _) = true
  rw [ok, Bool.true_and]
  exact well

end Flood

/-- A chunk of six bytes gets through a ceiling of four; while it is drained, and after that, it is
the only segment, and the transform is not called again. -/
theorem queue_bounded_flood :
    ∃ w₁, Flood.make Flood.world = .ok (.ok 0) w₁ ∧
      let w₂ := Flood.run.left w₁
      (w₂.pipes.get 0).queue.bytes = 5 ∧ (w₂.pipes.get 0).queue.length = 1 ∧ w₂.owner = true ∧
        ∀ call ∈ calls 0 w₂.journal, call.IsDue := by
  have waiting : Flood.make.ends Flood.world fun made w₁ => made.toOption = some 0 &&
      ((Flood.run.left w₁).pipes.get 0).queue.bytes = 5 := by decide +kernel
  obtain ⟨made, w₁, make, waiting⟩ := Machine.ends_iff.1 waiting
  obtain ⟨first, waiting⟩ := Bool.and_eq_true_iff.1 waiting
  obtain rfl := Machine.eq_ok_of_toOption (of_decide_eq_true first)
  have bytes := of_decide_eq_true waiting
  have bounded := (queue_bounded (· = true) rfl make
    (List.forall_mem_singleton.2 Flood.conduct_run)).1
  refine ⟨w₁, make, bytes, bounded.1.single ?_, bounded.2, bounded.1.due⟩
  change 4 < ((Flood.run.left w₁).pipes.get 0).queue.bytes
  rw [bytes]
  decide

end ByteFlow
