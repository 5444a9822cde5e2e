/-
# What a run leaves does not move

A run ends when nothing more comes of it, so a second one does nothing: it may call the transform
once more, or take the head segment out of the queue and put it back, but all is as it was
afterwards, and nobody is told of anything.

`Pipe.Still` lists the states in which this is so. The pipe has failed. Or nothing can be drained,
and there is nothing to read, or nothing comes of a call of the transform. Or the destination was
cleaned, so that the head segment comes back. Each run ends in one of them if the transform is
placid, as those of the library are.

This is shown of all states that programs can bring about, also of pipes that have failed or were
cleaned, and of pipes with a destination that was emptied or cleaned by somebody else.
-/

import ByteFlow.Proofs.Finality
import ByteFlow.Proofs.Passes
import ByteFlow.Proofs.Placid
import ByteFlow.Proofs.Soundness

namespace ByteFlow

open Machine

variable {τ ω : Type}

/-- The event is an edge, or tells a handler of one. -/
def Event.IsEdge : Event → Prop
  | .fired .. | .notified .. => True
  | _ => False

/-! ## Calls of which nothing comes -/

namespace Ring

/-- Content that begins at the first cell is moved nowhere. -/
theorem defragment_of_head_eq_zero {r : Ring} (movable : r.canDefragment) (start : r.head = 0) :
    r.defragment = .ok r := by
  obtain ⟨heap, intact⟩ := Bool.and_eq_true_iff.1 movable
  rw [Bool.not_eq_true'] at intact
  have turned : r.cells.rotate r.head = r.cells := by
    apply Block.toList_injective
    rw [start, Block.toList_rotate, List.drop_zero, List.take_zero, List.append_nil]
  have stays : { r with cells := r.cells.rotate r.head, head := 0 } = r := by
    rw [turned, ← start]
  exact (if_neg (Bool.eq_false_iff.1 intact)).trans ((if_pos heap).trans (congrArg _ stays))

theorem defragment_of_not_movable {r : Ring} (fixed : r.canDefragment = false) :
    ∃ e, r.defragment = .error e := by
  unfold defragment
  split
  · exact ⟨_, rfl⟩
  · rename_i intact
    have stays : ¬r.region.isRelocatable = true := fun heap => by
      rw [canDefragment, heap, Bool.eq_false_iff.2 intact] at fixed
      cases fixed
    exact ⟨_, if_neg stays⟩

end Ring

namespace Pipe

section Tidy

variable {pipe : Pipe τ}

/-- Content that begins at the first cell, or cannot be moved, is tidy. -/
theorem tidy_of_front (front : pipe.source.canDefragment = true → pipe.source.head = 0) :
    pipe.tidy = (pipe, []) := by
  unfold tidy
  cases movable : pipe.source.canDefragment with
  | true =>
      rw [Ring.defragment_of_head_eq_zero movable (front movable), Event.ofDefragment,
        front movable]
      rfl
  | false =>
      obtain ⟨e, stays⟩ := Ring.defragment_of_not_movable movable
      rw [stays]

/-- Afterwards the content begins at the first cell, or cannot be moved. -/
theorem front_tidy (movable : pipe.tidy.1.source.canDefragment) :
    pipe.tidy.1.source.head = 0 := by
  unfold tidy at movable ⊢
  split
  · rename_i source moved
    obtain ⟨cells, rfl⟩ := eq_of_defragment moved
    rfl
  · rename_i e stays
    rw [stays] at movable
    obtain ⟨moved, impossible⟩ := Ring.exists_defragment movable
    rw [stays] at impossible
    cases impossible

end Tidy

variable [Transform τ] {pipe : Pipe τ} {ring : Ring} {p : PipeId}

/-- What a call gives back that leaves everything as it was. -/
def untouched (pipe : Pipe τ) (step : Step) : Transformed τ :=
  ⟨pipe.transform, .new pipe.queue pipe.scratch pipe.options.ceiling, .ok step⟩

/-- Nothing comes of a call of the transform: nothing is used, and if an incomplete unit waits for
more, it lies already where it can grow most. -/
inductive Dormant (pipe : Pipe τ) : Prop where
  | done (called : pipe.called = pipe.untouched (.done 0)) : Dormant pipe
  | waits (called : pipe.called = pipe.untouched (.underflow 0))
      (piece : pipe.source.isContiguous) (room : pipe.source.isFull = false)
      (front : pipe.source.canDefragment = true → pipe.source.head = 0) : Dormant pipe

omit [Transform τ] in
theorem consume_zero_eq (valid : pipe.source.Valid) : pipe.consume 0 = pipe := by
  unfold consume
  rw [Ring.discard_zero valid, decide_eq_false (Nat.lt_irrefl 0), Bool.false_and, Bool.or_false]

/-- A call that leaves everything as it was is followed up like any other. -/
theorem advance_of_untouched {step : Step} (ends : step.EndsAt 0)
    (called : pipe.called = pipe.untouched step) (p : PipeId) :
    pipe.advance p = pipe.absorb [.transformed p pipe.source.readable
      (pipe.options.ceiling - pipe.queue.bytes) step [] (pipe.options.ceiling - pipe.queue.bytes)]
      step 0 := by
  have answer : Transform.call pipe.transform pipe.source.readable.toList
      (.new pipe.queue pipe.scratch pipe.options.ceiling) = pipe.untouched step := called
  unfold advance
  dsimp only
  rw [answer]
  rcases ends with rfl | rfl <;> rfl

/-- A call of the transform leaves the pipe as it is, makes no progress and tells nobody. -/
structure Rests (p : PipeId) (pipe : Pipe τ) : Prop where
  same : (pipe.advance p).pipe = pipe
  outcome : (pipe.advance p).outcome = .ok (.ok false)
  silent : ∀ event ∈ (pipe.advance p).events, ¬event.IsEdge

/-- An incomplete unit that waits for more ends the run, and is moved to where it can grow most. -/
theorem advance_of_waits (valid : pipe.source.Valid)
    (called : pipe.called = pipe.untouched (.underflow 0)) (piece : pipe.source.isContiguous)
    (room : pipe.source.isFull = false) (p : PipeId) :
    ∃ events : List Event, (∀ event ∈ events, ¬event.IsEdge) ∧
      pipe.advance p = ⟨pipe.tidy.1, pipe.tidy.2 ++ events, .ok (.ok false)⟩ := by
  have advanced := advance_of_untouched (.inr rfl) called p
  have absorbed (events : List Event) : pipe.absorb events (.underflow 0) 0 =
      (pipe.consume 0).applyRemedy (.logged (.transformed pipe.direction 0 0) :: events)
        (.of false (!pipe.source.isContiguous) pipe.source.isFull
          (pipe.consume 0).source.canDefragment) := by
    unfold absorb
    exact if_neg (Nat.not_lt_zero _)
  rw [absorbed, consume_zero_eq valid, piece, room] at advanced
  exact ⟨_, List.forall_mem_cons.2 ⟨id, List.forall_mem_singleton.2 id⟩, advanced⟩

theorem Dormant.rests (dormant : pipe.Dormant) (valid : pipe.source.Valid) (p : PipeId) :
    pipe.Rests p := by
  cases dormant with
  | done called =>
      have advanced := advance_of_untouched (.inl rfl) called p
      have absorbed (events : List Event) : pipe.absorb events (.done 0) 0 =
          ⟨pipe.consume 0, .logged (.transformed pipe.direction 0 0) :: events,
            .ok (.ok false)⟩ := by
        unfold absorb
        exact if_neg (Nat.not_lt_zero _)
      rw [absorbed, consume_zero_eq valid] at advanced
      refine ⟨congrArg _ advanced, congrArg _ advanced, ?_⟩
      rw [advanced]
      exact List.forall_mem_cons.2 ⟨id, List.forall_mem_singleton.2 id⟩
  | waits called piece room front =>
      obtain ⟨events, silent, advanced⟩ := advance_of_waits valid called piece room p
      rw [tidy_of_front front] at advanced
      exact ⟨congrArg _ advanced, congrArg _ advanced, advanced ▸ silent⟩

omit [Transform τ] in
/-- A step that is followed up by ending the run has used nothing. If it asks for more of a unit,
there is room for more right behind. -/
theorem unused_of_absorb {events : List Event} {step : Step} {emitted : Nat}
    (outcome : (pipe.absorb events step emitted).outcome = .ok (.ok false)) :
    step.consumed = 0 ∧
      (step.isUnderflow → pipe.source.isContiguous ∧ pipe.source.isFull = false) := by
  unfold absorb at outcome
  dsimp only at outcome
  split at outcome
  · cases outcome
  · have unused (idle : (decide (0 < step.consumed) || decide (0 < emitted)) = false) :
        step.consumed = 0 :=
      Nat.eq_zero_of_not_pos (of_decide_eq_false (Bool.or_eq_false_iff.1 idle).1)
    split at outcome
    · unfold Remedy.of at outcome
      split at outcome
      · cases outcome
      · rename_i idle
        split at outcome
        · split at outcome <;> cases outcome
        · rename_i straight
          split at outcome
          · cases outcome
          · rename_i room
            refine ⟨unused (Bool.eq_false_iff.2 idle), fun _ => ⟨?_, Bool.eq_false_iff.2 room⟩⟩
            simpa using straight
    · rename_i complete
      exact ⟨unused (Except.ok.inj (Except.ok.inj outcome)),
        fun incomplete => (complete incomplete).elim⟩

/-- A call after which the run ends has used nothing. If it asks for more of a unit, there is room
for more right behind. -/
theorem exists_idle_step (outcome : (pipe.advance p).outcome = .ok (.ok false)) :
    ∃ step, pipe.called.result = .ok step ∧ step.EndsAt 0 ∧
      (step.isUnderflow → pipe.source.isContiguous ∧ pipe.source.isFull = false) := by
  cases result : pipe.called.result with
  | error misuse =>
      have broken : (pipe.advance p).outcome = .error misuse := by
        unfold advance
        dsimp only
        rw [← called.eq_def, result]
      rw [broken] at outcome
      cases outcome
  | ok step =>
      obtain ⟨after, events, source, _, advanced⟩ := advance_of_called p result
      rw [advanced] at outcome
      rw [← source]
      refine ⟨step, rfl, ?_⟩
      cases step with
      | errored cause => cases outcome
      | done consumed =>
          obtain ⟨rfl, room⟩ := unused_of_absorb outcome
          exact ⟨.inl rfl, room⟩
      | underflow consumed =>
          obtain ⟨rfl, room⟩ := unused_of_absorb outcome
          exact ⟨.inr rfl, room⟩

theorem Dormant.like {after : Pipe τ} (dormant : pipe.Dormant) (like : pipe.Like after) :
    after.Dormant := by
  obtain ⟨_, _, _, rfl⟩ := like
  cases dormant with
  | done called => exact .done called
  | waits called piece room front => exact .waits called piece room front

/-- An incomplete unit that was moved to where it can grow most waits there. -/
theorem dormant_tidy (valid : pipe.source.Valid)
    (called : pipe.called = pipe.untouched (.underflow 0)) (piece : pipe.source.isContiguous)
    (room : pipe.source.isFull = false) : pipe.tidy.1.Dormant := by
  have tidies := tidies_tidy valid
  cases movable : pipe.source.canDefragment with
  | false =>
      have fixed : pipe.source.canDefragment = true → pipe.source.head = 0 := fun impossible => by
        rw [movable] at impossible
        cases impossible
      rw [tidy_of_front fixed]
      exact .waits called piece room fixed
  | true =>
      have still : pipe.tidy.1.source.canDefragment = true := by
        rw [Ring.canDefragment, tidies.region, tidies.cleaned]
        exact movable
      have start := front_tidy still
      have used : pipe.tidy.1.source.used = pipe.source.used := by
        rw [← tidies.valid.length_toList, tidies.content, valid.length_toList]
      have input : pipe.tidy.1.source.readable.toList = pipe.source.readable.toList := by
        rw [Ring.toList_readable tidies.valid start, tidies.content,
          Ring.toList_readable_of_isContiguous piece]
      refine .waits ?_ ?_ ?_ fun _ => start
      · obtain ⟨source, same⟩ := tidies.same
        rw [same] at input ⊢
        rw [Pipe.called, input]
        exact called
      · have inside := tidies.valid.used_le
        rw [Ring.isContiguous, start, Nat.zero_add]
        exact decide_eq_true inside
      · rw [Ring.isFull, used, tidies.size]
        exact room

/-- After a call that makes no progress the pipe is dormant, if the transform is placid, and its
queue is what it was. -/
theorem dormant_advance [Transform.Placid τ] (order : pipe.InOrder)
    (outcome : (pipe.advance p).outcome = .ok (.ok false)) :
    (pipe.advance p).pipe.Dormant ∧ (pipe.advance p).pipe.queue = pipe.queue := by
  obtain ⟨step, result, ends, room⟩ := exists_idle_step outcome
  have called : pipe.called = pipe.untouched step :=
    Transform.Placid.placid _ _ _ step ends result
  rcases ends with rfl | rfl
  · have dormant := Dormant.done called
    rw [(dormant.rests order.source p).same]
    exact ⟨dormant, rfl⟩
  · obtain ⟨piece, room⟩ := room rfl
    obtain ⟨_, _, advanced⟩ := advance_of_waits order.source called piece room p
    obtain ⟨source, same⟩ := (tidies_tidy order.source).same
    rw [advanced]
    exact ⟨dormant_tidy order.source called piece room, by rw [same]⟩

end Pipe

/-! ## Still pipes -/

/-- A segment that is put back can be taken out again. -/
theorem Queue.popFront_pushFront (q : Queue) {segment : Ring} (held : segment.used ≠ 0) :
    (q.pushFront segment).popFront = some (segment, q) := by
  have filled : segment.isEmpty = false := beq_eq_false_iff_ne.2 held
  rw [pushFront, filled, if_neg Bool.false_ne_true]
  change some (segment, (⟨q.front, q.back, q.bytes + segment.used - segment.used⟩ : Queue)) = _
  rw [Nat.add_sub_cancel]

namespace Pipe

/-- A segment waits, and the queue is as it is after the segment was taken out and put back. -/
def Returns (pipe : Pipe τ) : Prop :=
  ∃ segment rest, pipe.queue.popFront = some (segment, rest) ∧ rest.pushFront segment = pipe.queue

theorem Refuses.returns {pipe after : Pipe τ} {ring : Ring} (order : pipe.InOrder)
    (refuses : pipe.Refuses ring after) : after.Returns := by
  obtain ⟨_, _, segment, rest, popped, rfl⟩ := refuses
  obtain ⟨⟨_, held⟩, _⟩ := order.queue.popFront popped
  exact ⟨segment, rest, rest.popFront_pushFront held, rfl⟩

/-- Nothing more comes of the pipe as long as nobody else does anything. -/
inductive Still [Transform τ] (pipe : Pipe τ) (ring : Ring) : Prop where
  | failed (failed : pipe.failure ≠ none) : Still pipe ring
  | unready (spent : Spent pipe ring) (unready : pipe.isReady = false) : Still pipe ring
  | dormant (spent : Spent pipe ring) (dormant : pipe.Dormant) : Still pipe ring
  | refused (cleaned : ring.cleaned = true) (room : ring.free ≠ 0) (returns : pipe.Returns) :
      Still pipe ring

theorem Still.like [Transform τ] {pipe after : Pipe τ} {ring : Ring} (still : pipe.Still ring)
    (like : pipe.Like after) : after.Still ring := by
  cases still with
  | failed failed =>
      obtain ⟨_, _, _, rfl⟩ := like
      exact .failed failed
  | unready spent unready =>
      obtain ⟨_, _, _, rfl⟩ := like
      exact .unready spent unready
  | dormant spent dormant =>
      refine .dormant ?_ (dormant.like like)
      obtain ⟨_, _, _, rfl⟩ := like
      exact spent
  | refused cleaned room returns =>
      obtain ⟨_, _, _, rfl⟩ := like
      exact .refused cleaned room returns

/-- Where a run has ended, the pipe is still. -/
theorem Ended.still [Transform τ] [Transform.Placid τ] {p : PipeId} {pipe : Pipe τ} {ring : Ring}
    (ended : pipe.Ended p ring) : pipe.Still ring := by
  rcases ended with failed | ⟨answer, stops⟩
  · exact .failed failed
  cases stops with
  | unready spent unready => exact .unready spent unready
  | idle order spent ready outcome like =>
      obtain ⟨dormant, queue⟩ := dormant_advance order outcome
      refine (Still.dormant (spent.imp_left fun empty => ?_) dormant).like like
      rw [queue]
      exact empty
  | refused order refuses like =>
      exact (Still.refused refuses.cleaned refuses.room (refuses.returns order)).like like

/-! ## A second run -/

/-- The computation comes to `a` and changes nothing. What goes on record then is not of edges. -/
def Quiet {α : Type} (m : Machine τ ω α) (w : World τ ω) (a : α) : Prop :=
  ∃ events : List Event, (∀ event ∈ events, ¬event.IsEdge) ∧
    m w = .ok a { w with journal := events ++ w.journal }

theorem Quiet.of_ok {α : Type} {m : Machine τ ω α} {w : World τ ω} {a : α} (ran : m w = .ok a w) :
    Quiet m w a := ⟨[], List.forall_mem_nil _, ran⟩

/-- What is done after a quiet computation, if it does nothing, is quiet too. -/
theorem Quiet.andThen {α β : Type} {m : Machine τ ω α} {f : α → Machine τ ω β} {w : World τ ω}
    {a : α} {b : β} (first : Quiet m w a) (rest : ∀ w, f a w = .ok b w) : Quiet (m >>= f) w b := by
  obtain ⟨events, silent, ran⟩ := first
  exact ⟨events, silent, (bind_of_ok ran).trans (rest _)⟩

section Again

variable [Inhabited τ] {o : Owner τ ω} {p : PipeId} {w : World τ ω}

/-- Of a queue that is empty nothing is drained, nor into a destination that is full. -/
theorem drain_of_spent (granted : 0 < o.passes)
    (spent : Spent (w.pipes.get p) (w.content (w.pipes.get p).destination)) :
    drain o p w = .ok (.ok false) w := by
  obtain ⟨passes, eq⟩ := Nat.exists_eq_succ_of_ne_zero (Nat.ne_of_gt granted)
  have drained : drainInto o p (w.pipes.get p).destination o.passes 0 w =
      .ok (.ok (.moved 0)) w := by
    rw [eq]
    unfold drainInto
    refine (bind_of_ok rfl).trans ((bind_of_ok rfl).trans ?_)
    dsimp only
    by_cases full : (w.rings.get (w.pipes.get p).destination).ring.free = 0
    · rw [if_pos (Or.inl full)]
      rfl
    · have empty := Queue.isEmpty_iff_segments_eq_nil.1 (spent.resolve_right full)
      rw [if_neg (not_or.2 ⟨full, fun other => other rfl⟩), Queue.popFront_eq_none_iff.2 empty]
      rfl
  exact (bind_of_ok drained).trans rfl

/-- A ring that was cleaned takes nothing. -/
theorem store_of_cleaned {r : RingId} (cleaned : (w.content r).cleaned = true) (data : Bytes) :
    SharedRing.store o r data w = .ok (.error (.closed .store)) w := by
  have inUse : r < w.rings.next := by
    refine Nat.lt_of_not_le fun unused => ?_
    rw [World.content, Table.get_of_next_le unused] at cleaned
    cases cleaned
  have stays : (w.content r).store data = (w.content r, .error (.closed .store)) := if_pos cleaned
  have tried : (updateRing r fun ring =>
      (((ring.store data).2, ring.isEmpty && !(ring.store data).1.isEmpty),
        (ring.store data).1) : Machine τ ω (Except Error Nat × Bool)) w =
      .ok (((w.content r).store data).2,
        (w.content r).isEmpty && !((w.content r).store data).1.isEmpty) w := by
    have same : w.rings.set r { w.rings.get r with ring := ((w.content r).store data).1 } =
        w.rings := by
      rw [stays]
      exact Table.set_get inUse
    change EStateM.Result.ok (w.rings.update r _).1 { w with rings := (w.rings.update r _).2 } = _
    rw [Table.update_eq]
    exact congrArg (fun rings => EStateM.Result.ok _ { w with rings }) same
  refine (bind_of_ok tried).trans ?_
  rw [stays]
  rfl

/-- A destination that was cleaned takes nothing, and the head segment comes back. -/
theorem drain_of_returns (granted : 0 < o.passes) (inUse : p < w.pipes.next)
    (sound : (w.pipes.get p).Sound)
    (cleaned : (w.content (w.pipes.get p).destination).cleaned = true)
    (room : (w.content (w.pipes.get p).destination).free ≠ 0) (returns : (w.pipes.get p).Returns) :
    drain o p w = .ok (.error (.closed .store)) w := by
  obtain ⟨passes, eq⟩ := Nat.exists_eq_succ_of_ne_zero (Nat.ne_of_gt granted)
  obtain ⟨segment, rest, popped, back⟩ := returns
  obtain ⟨⟨valid, held⟩, ⟨piece, whole⟩, _⟩ := sound.queue.popFront popped
  let between : World τ ω :=
    { w with pipes := w.pipes.set p { w.pipes.get p with queue := rest } }
  have out : between.pipes.get p = { w.pipes.get p with queue := rest } := by
    rw [Table.get_set, if_pos rfl]
  have refused : (segment.writeTo (SharedRing.sink o (w.pipes.get p).destination)
      (w.content (w.pipes.get p).destination).free) between =
        .ok ⟨segment, [], .error (.closed .store)⟩ between := by
    rw [Ring.writeTo_of_isContiguous valid whole piece held (Nat.pos_of_ne_zero room)]
    exact (bind_of_ok (store_of_cleaned (w := between) cleaned _)).trans rfl
  have restored : between.pipes.set p { between.pipes.get p with
      queue := (between.pipes.get p).queue.pushFront segment } = w.pipes := by
    rw [out]
    change (w.pipes.set p _).set p { w.pipes.get p with queue := rest.pushFront segment } = _
    rw [Table.set_set, back]
    exact Table.set_get inUse
  have drained : drainInto o p (w.pipes.get p).destination o.passes 0 w =
      .ok (.error (.closed .store)) w := by
    rw [eq]
    unfold drainInto
    refine (bind_of_ok rfl).trans ((bind_of_ok rfl).trans ?_)
    dsimp only
    have roomy : (w.rings.get (w.pipes.get p).destination).ring.free ≠ 0 := room
    rw [if_neg (not_or.2 ⟨roomy, fun other => other rfl⟩), popped]
    have taken : modifyPipe p (fun pipe => { pipe with queue := rest }) w = .ok () between := rfl
    refine (bind_of_ok taken).trans ((bind_of_ok refused).trans ?_)
    change (if (between.pipes.get p).source.cleaned then _ else _ :
      Machine τ ω (Except Error Drained)) between = _
    have intact : (between.pipes.get p).source.cleaned = false := by
      rw [out]
      exact sound.intact popped
    rw [intact, if_neg Bool.false_ne_true]
    have puts : modifyPipe p (fun pipe => { pipe with queue := pipe.queue.pushFront segment })
        between = .ok () w := by
      change EStateM.Result.ok () { w with pipes := between.pipes.set p _ } = _
      rw [restored]
    exact (bind_of_ok puts).trans rfl
  exact (bind_of_ok drained).trans rfl

variable [Transform τ]

theorem transformOnce_of_unready (unready : (w.pipes.get p).isReady = false) :
    transformOnce p w = .ok (.ok false) w := by
  change (if (w.pipes.get p).isReady then _ else _ : Machine τ ω (Except Error Bool)) w = _
  rw [unready, if_neg Bool.false_ne_true]
  rfl

theorem transformOnce_of_rests (inUse : p < w.pipes.next) (ready : (w.pipes.get p).isReady)
    (rests : (w.pipes.get p).Rests p) :
    transformOnce p w =
      .ok (.ok false) { w with journal := ((w.pipes.get p).advance p).events ++ w.journal } := by
  change (if (w.pipes.get p).isReady then _ else _ : Machine τ ω (Except Error Bool)) w = _
  rw [ready, if_pos rfl]
  have stays : modifyPipe p (fun _ => ((w.pipes.get p).advance p).pipe) w = .ok () w := by
    change EStateM.Result.ok () { w with pipes := w.pipes.set p _ } = _
    rw [rests.same, Table.set_get inUse]
  refine (bind_of_ok stays).trans ((bind_of_ok rfl).trans ?_)
  rw [rests.outcome]
  rfl

/-- A call of the transform of which nothing comes leaves at most a record. -/
theorem quiet_transformOnce (inUse : p < w.pipes.next)
    (idle : (w.pipes.get p).isReady = false ∨ (w.pipes.get p).Rests p) :
    Quiet (transformOnce p) w (.ok false) := by
  cases ready : (w.pipes.get p).isReady with
  | false => exact .of_ok (transformOnce_of_unready ready)
  | true =>
      rw [ready] at idle
      have rests := idle.resolve_left nofun
      exact ⟨_, rests.silent, transformOnce_of_rests inUse ready rests⟩

/-- Where nothing can be drained and nothing comes of the transform, a run is over at once. -/
theorem quiet_settle (granted : 0 < o.passes) (inUse : p < w.pipes.next)
    (spent : Spent (w.pipes.get p) (w.content (w.pipes.get p).destination))
    (idle : (w.pipes.get p).isReady = false ∨ (w.pipes.get p).Rests p) :
    Quiet (settle o p o.passes) w (.ok ()) := by
  obtain ⟨passes, eq⟩ := Nat.exists_eq_succ_of_ne_zero (Nat.ne_of_gt granted)
  have drained := drain_of_spent granted spent
  obtain ⟨settled, asked⟩ : ∃ settled, isSettled p w = .ok settled w := ⟨_, rfl⟩
  rw [eq]
  cases settled with
  | true => exact .of_ok ((bind_of_ok asked).trans rfl)
  | false =>
      obtain ⟨events, silent, turned⟩ := quiet_transformOnce inUse idle
      refine ⟨events, silent, (bind_of_ok asked).trans ?_⟩
      exact (bind_of_ok drained).trans ((bind_of_ok turned).trans rfl)

/-- Where the head segment comes back, a run ends with an error that does not fail the pipe. -/
theorem settle_of_returns (granted : 0 < o.passes) (inUse : p < w.pipes.next)
    (sound : (w.pipes.get p).Sound)
    (cleaned : (w.content (w.pipes.get p).destination).cleaned = true)
    (room : (w.content (w.pipes.get p).destination).free ≠ 0) (returns : (w.pipes.get p).Returns) :
    settle o p o.passes w = .ok (.error (.closed .store)) w := by
  have pending : ((w.pipes.get p).queue.isEmpty ||
      (w.content (w.pipes.get p).destination).free == 0) = false := by
    obtain ⟨segment, rest, popped, _⟩ := returns
    refine Bool.or_eq_false_iff.2 ⟨Bool.eq_false_iff.2 fun empty => ?_, beq_eq_false_iff_ne.2 room⟩
    rw [Queue.popFront_eq_none_iff.2 (Queue.isEmpty_iff_segments_eq_nil.1 empty)] at popped
    cases popped
  have unsettled : isSettled p w = .ok false w := by
    change EStateM.Result.ok (((w.pipes.get p).queue.isEmpty ||
      (w.content (w.pipes.get p).destination).free == 0) && !(w.pipes.get p).isReady) w = _
    rw [pending, Bool.false_and]
  obtain ⟨passes, eq⟩ := Nat.exists_eq_succ_of_ne_zero (Nat.ne_of_gt granted)
  have drained := drain_of_returns granted inUse sound cleaned room returns
  rw [eq]
  exact (bind_of_ok unsettled).trans ((bind_of_ok drained).trans rfl)

theorem operate_of_live (live : (w.pipes.get p).failure = none) :
    operate o p w = (do
      match ← settle o p o.passes with
      | .error e => fail o p e
      | .ok () => pure () : Machine τ ω Unit) w := by
  change (if (w.pipes.get p).failure.isNone then _ else _ : Machine τ ω Unit) w = _
  rw [live]
  rfl

/-- What happens while a still pipe operates changes nothing, and tells nobody. -/
theorem quiet_operate (granted : 0 < o.passes) (inUse : p < w.pipes.next)
    (sound : (w.pipes.get p).Sound)
    (still : (w.pipes.get p).Still (w.content (w.pipes.get p).destination)) :
    Quiet (operate o p) w () := by
  by_cases live : (w.pipes.get p).failure = none
  · unfold Quiet
    rw [operate_of_live live]
    cases still with
    | failed failed => exact (failed live).elim
    | unready spent unready =>
        exact (quiet_settle granted inUse spent (.inl unready)).andThen fun _ => rfl
    | dormant spent dormant =>
        have rests := dormant.rests sound.source p
        exact (quiet_settle granted inUse spent (.inr rests)).andThen fun _ => rfl
    | refused cleaned room returns =>
        refine ⟨[.logged (.runAborted (w.pipes.get p).direction (.closed .store))],
          List.forall_mem_singleton.2 id, ?_⟩
        exact (bind_of_ok (settle_of_returns granted inUse sound cleaned room returns)).trans rfl
  · apply Quiet.of_ok
    change (if (w.pipes.get p).failure.isNone then _ else _ : Machine τ ω Unit) w = _
    rw [if_neg fun none => live (Option.isNone_iff_eq_none.1 none)]
    rfl

/-- A run of the pipe changes nothing at all but the record, and tells nobody. -/
def Idles (o : Owner τ ω) (p : PipeId) (w : World τ ω) : Prop :=
  ∃ events w', Passed p events w w' ∧ (∀ event ∈ events, ¬event.IsEdge) ∧ run o p w = .ok () w'

/-- A still pipe idles, if it does not operate. -/
theorem Still.idles (still : (w.pipes.get p).Still (w.content (w.pipes.get p).destination))
    (sound : (w.pipes.get p).Sound) (operates : (w.pipes.get p).Operates false)
    (granted : 0 < o.passes) : Idles o p w := by
  let inside := (w.entered p).begun p
  have begun : (inside.pipes.get p).Still (inside.content (inside.pipes.get p).destination) := by
    rw [get_begun]
    exact still.like ⟨_, _, _, rfl⟩
  have order : (inside.pipes.get p).Sound := by
    rw [get_begun]
    exact ⟨⟨sound.source, sound.queue⟩, sound.emptied⟩
  have inUse : p < inside.pipes.next := Table.lt_next_set _ _ _
  obtain ⟨events, silent, operated⟩ := quiet_operate granted inUse order begun
  obtain ⟨w', passed, entered⟩ := exists_passed p ((w.pipes.get p).bracket p events) w ()
  refine ⟨_, w', passed, fun event member => ?_,
    (run_of_operate operates events operated).trans entered⟩
  -- The beginning and the end of a run are on record too, and are no edges.
  rcases List.mem_cons.1 member with rfl | within
  · exact id
  · rcases List.mem_append.1 within with between | first
    · exact silent event between
    · rw [List.mem_singleton.1 first]
      exact id

/-- What a run has left behind idles. -/
theorem Left.idles [Transform.Placid τ] {d : RingId} (left : (w.pipes.get p).Left p d (w.content d))
    (granted : 0 < o.passes) : Idles o p w := by
  have still := left.ended.still
  rw [← left.destination] at still
  exact still.idles left.toSound left.operates granted

end Again

end Pipe

/-- The transforms of the library come to an answer in each call. -/
theorem Codec.answers : Transform.Answers fun _ : Codec => True where
  result _ _ _ := ⟨_, rfl⟩
  next _ _ _ := trivial

/-- In a sound world a pipe that does not operate can be run. -/
theorem World.Sound.idle [Inhabited τ] {good : τ → Prop} {w : World τ ω} (sound : w.Sound)
    {p : PipeId} (rests : (w.pipes.get p).operating = false) (fine : good (w.pipes.get p).transform)
    (held : (w.pipes.get p).held = true) :
    (w.pipes.get p).Idle good (w.pipes.get p).destination
      (w.content (w.pipes.get p).destination) where
  toSound := sound.pipes p
  usable := sound.rings _
  destination := rfl
  held := held
  operating := rests
  good := fine

/-- To run a pipe twice is to run it once.

Whatever a program has done with a pipe of the library and with its destination, also if the pipe
has failed or was cleaned, or the destination was emptied or cleaned from outside: a run comes to
its end, and each further run comes to its end too, leaves everything as it is, and tells nobody. -/
theorem run_is_idempotent {o : Owner Codec ω} (passive : o.Passive) {p : PipeId}
    {w : World Codec ω} (reached : Reached p w) (held : (w.pipes.get p).held = true)
    (granted : (w.pipes.get p).source.used +
      2 * (w.content (w.pipes.get p).destination).free + (w.pipes.get p).options.ceiling + 2 ≤
        o.passes) :
    ∃ w', Pipe.run o p w = .ok () w' ∧
      ∀ again : Owner Codec ω, 0 < again.passes → Pipe.Idles again p w' := by
  obtain ⟨sound, _, operates⟩ := reached.sound
  have idle : (w.pipes.get p).Idle (fun _ : Codec => True) _ _ :=
    sound.idle operates.operating trivial held
  obtain ⟨w', ran, left⟩ := exists_runVetted Codec.answers passive idle granted
  exact ⟨w', Pipe.run_of_runVetted ⟨rfl, Nat.le_refl _⟩ p ran, fun again => left.idles⟩

/-! ## A pipe that runs dry -/

namespace Dam

/-- A source that has six bytes ready. -/
def source : Source (Machine Codec Unit) where
  read wanted := pure (.ok ([1, 2, 3, 4, 5, 6].take wanted))
  isEnded := pure false

def owner : Owner Codec Unit := ⟨fun _ _ => pure (), 14⟩

theorem passive : owner.Passive := fun _ _ => discreet_pure _

/-- A world with a ring that has room for four bytes. -/
def world : World Codec Unit := ⟨⟨[⟨.empty 4 .heap, []⟩]⟩, .empty, [], ()⟩

theorem sound : world.Sound :=
  (World.Sound.empty ()).set_ring (r := 0) (Ring.valid_empty 4 .heap)

/-- Makes a pipe that copies. -/
def make : Machine Codec Unit (Except Error PipeId) :=
  Pipe.create .unwrap 0 (.identity .whole) ⟨4, some 8, .heap⟩

/-- Stores into the pipe, more than the destination takes, and cleans the destination. -/
def overfill : Machine Codec Unit Unit := do
  let _ ← Pipe.storeFrom owner 0 source
  SharedRing.clean 0

theorem conduct : Conduct (Rules.custody 0) overfill :=
  .andThen (.feed 0 (fun _ _ => .gives _) trivial (fun _ => .gives _) (.gives _)) fun _ =>
    .aside (.cleanRing 0)

end Dam

/-- Two bytes wait that a destination which was cleaned does not take. The first run tries to drain
them and gives up, and so does the next one. -/
theorem run_is_idempotent_dam :
    ∃ w₁ w₂ w₃, Dam.make Dam.world = .ok (.ok 0) w₁ ∧ Dam.overfill w₁ = .ok () w₂ ∧
      Pipe.run Dam.owner 0 w₂ = .ok () w₃ ∧ (w₃.pipes.get 0).queue.bytes = 2 ∧
      (w₃.content 0).cleaned = true ∧ (w₃.pipes.get 0).failure = none ∧
      Pipe.Idles Dam.owner 0 w₃ := by
  have runs : Dam.make.ends Dam.world fun made w₁ => made.toOption = some 0 &&
      Dam.overfill.ends w₁ fun _ w₂ => ((w₂.pipes.get 0).held = true ∧
        (w₂.pipes.get 0).source.used + 2 * (w₂.content (w₂.pipes.get 0).destination).free +
          (w₂.pipes.get 0).options.ceiling + 2 ≤ Dam.owner.passes) &&
        (Pipe.run Dam.owner 0).ends w₂ fun _ w₃ => (w₃.pipes.get 0).queue.bytes = 2 ∧
          (w₃.content 0).cleaned = true ∧ (w₃.pipes.get 0).failure = none := by decide +kernel
  obtain ⟨made, w₁, make, runs⟩ := ends_iff.1 runs
  obtain ⟨first, runs⟩ := Bool.and_eq_true_iff.1 runs
  obtain rfl := eq_ok_of_toOption (of_decide_eq_true first)
  obtain ⟨⟨⟩, w₂, overfill, runs⟩ := ends_iff.1 runs
  obtain ⟨able, runs⟩ := Bool.and_eq_true_iff.1 runs
  obtain ⟨⟨⟩, w₃, run, left⟩ := ends_iff.1 runs
  obtain ⟨held, granted⟩ := of_decide_eq_true able
  obtain ⟨waiting, cleaned, live⟩ := of_decide_eq_true left
  have reached : Reached 0 w₂ := ⟨_, _, _, _, _, _, _, _, Dam.sound, make, Dam.conduct,
    left_of_ok overfill⟩
  obtain ⟨w, ran, idles⟩ := run_is_idempotent Dam.passive reached held granted
  rw [run] at ran
  cases ran
  exact ⟨w₁, w₂, w₃, make, overfill, run, waiting, cleaned, live, idles _ (by decide)⟩

end ByteFlow
