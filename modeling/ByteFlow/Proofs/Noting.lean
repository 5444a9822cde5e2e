/-
# What runs note

A run makes room when a segment is drained to its end, or when the transform takes bytes from a
source that was full. `runNoting` is a run that takes down whether either has happened, and goes by
that at its end: if so, it tells of one edge, and it tells a handler only if the pipe does not
operate at that moment.

A run goes by a flag instead, which it sets in two places and takes down at its end, and it does not
look back before it tells a handler. As long as the pipe is not cleaned this is the same: the flag
is what was noted, on every path through the run, and no handler finds the pipe operating.
-/

import ByteFlow.Proofs.Entering
import ByteFlow.Proofs.Manner
import ByteFlow.Proofs.Operating
import ByteFlow.Proofs.Upkeep
import ByteFlow.Proofs.Watching

namespace ByteFlow

open Machine

variable {τ ω : Type}

namespace Pipe

/-! ## Runs that take notes -/

section Definitions

variable [Inhabited τ] [Transform τ]

/-- What is noted: that a segment was drained to its end, or that a source that was full holds less
after a call of the transform. -/
def noting (o : Owner τ ω) : Manner τ ω Bool :=
  .noting o (fun freed outflow => freed || outflow.ring.isEmpty) fun freed before after =>
    freed || (before.source.isFull && after.source.used < before.source.used)

end Definitions

/-! ## Room in front of the transform -/

/-- The source holds no more than before, and if it was full and holds less, an edge is due. -/
structure Eases (pipe after : Pipe τ) : Prop where
  capacity : after.source.capacity = pipe.source.capacity
  used : after.source.used ≤ pipe.source.used
  pending : after.pendingWritable =
    (pipe.pendingWritable || (pipe.source.isFull && after.source.used < pipe.source.used))

theorem Eases.refl (pipe : Pipe τ) : pipe.Eases pipe :=
  ⟨rfl, Nat.le_refl _, by simp⟩

theorem Eases.tidy {pipe after : Pipe τ} (h : pipe.Eases after) : pipe.Eases after.tidy.1 := by
  unfold Pipe.tidy
  split
  · rename_i source moved
    obtain ⟨cells, rfl⟩ := eq_of_defragment moved
    exact ⟨h.capacity, h.used, h.pending⟩
  · exact h

theorem eases_consume {pipe : Pipe τ} (held : pipe.source.used ≠ 0) (consumed : Nat) :
    pipe.Eases (pipe.consume consumed) := by
  have less : pipe.source.used - consumed < pipe.source.used ↔ 0 < consumed := by omega
  refine ⟨rfl, Nat.sub_le _ _, ?_⟩
  simp [consume, Ring.discard, less, Bool.and_comm]

theorem eases_absorb {pipe : Pipe τ} (held : pipe.source.used ≠ 0) (events : List Event)
    (step : Step) (emitted : Nat) : pipe.Eases (pipe.absorb events step emitted).pipe := by
  have consumed := eases_consume held step.consumed
  unfold absorb
  dsimp only
  split
  · exact .refl pipe
  · split
    · unfold applyRemedy
      split
      · exact consumed.tidy
      · exact consumed.tidy
      · exact consumed.tidy
      · exact consumed
    · exact consumed

/-- What an advance takes out of a full source is noted, however the call of the transform ends. -/
theorem eases_advance [Transform τ] (p : PipeId) {pipe : Pipe τ} (held : pipe.source.used ≠ 0) :
    pipe.Eases (pipe.advance p).pipe := by
  let after : Pipe τ :=
    { pipe with
      transform := pipe.called.next
      queue := pipe.called.output.queue
      scratch := pipe.called.output.scratch }
  have same : pipe.Eases after := ⟨rfl, Nat.le_refl _, by simp [after]⟩
  have absorbed (events : List Event) (step : Step) (emitted : Nat) :
      pipe.Eases (after.absorb events step emitted).pipe := by
    have held : after.source.used ≠ 0 := held
    obtain ⟨capacity, used, pending⟩ := eases_absorb held events step emitted
    exact ⟨capacity, used, pending⟩
  dsimp only [advance]
  rw [← called.eq_def]
  cases pipe.called.result with
  | error misuse => exact same
  | ok step =>
      cases step with
      | errored cause => exact same
      | done consumed => exact absorbed _ _ _
      | underflow consumed => exact absorbed _ _ _

theorem isReady_used {pipe : Pipe τ} (ready : pipe.isReady) : pipe.source.used ≠ 0 := by
  simp [isReady, Ring.isEmpty] at ready
  exact ready.1

end Pipe

/-! ## The flag is what was noted -/

/-- The source and the queue are in order, the pipe was not cleaned, and some handlers stay. -/
structure Pipe.Intact (stays : HandlerId → Prop) (pipe : Pipe τ) : Prop extends
    Pipe.InOrder pipe where
  uncleaned : pipe.source.cleaned = false
  handlers : ∀ handler, stays handler → handler ∈ pipe.handlers

/-- How often a pipe has become writable. -/
def turned (p : PipeId) (journal : List Event) : Nat := journal.countP (Event.turns p)

theorem turned_cons {p : PipeId} {event : Event} (quiet : event.turns p = false)
    (journal : List Event) : turned p (event :: journal) = turned p journal := by
  simp [turned, quiet]

theorem turned_append {p : PipeId} {events : List Event}
    (quiet : ∀ event ∈ events, event.turns p = false) (journal : List Event) :
    turned p (events ++ journal) = turned p journal := by
  have none : events.countP (Event.turns p) = 0 := List.countP_eq_zero.2 fun event member => by
    simp [quiet event member]
  simp [turned, none]

/-- It is a matter of the source, the queue and the handlers whether a pipe is intact. -/
theorem Pipe.Intact.of_same {stays : HandlerId → Prop} {pipe pipe' : Pipe τ}
    (h : pipe.Intact stays) (source : pipe'.source = pipe.source)
    (queue : pipe'.queue = pipe.queue)
    (stay : ∀ handler, stays handler → handler ∈ pipe.handlers → handler ∈ pipe'.handlers) :
    pipe'.Intact stays where
  source := source ▸ h.source
  queue := queue ▸ h.queue
  uncleaned := source ▸ h.uncleaned
  handlers handler stays := stay handler stays (h.handlers handler stays)

/-- The queue may be another one, and so may be what is said of runs. -/
theorem Pipe.Intact.set_queue {stays : HandlerId → Prop} {pipe : Pipe τ}
    (h : pipe.Intact stays) {queue : Queue} (sound : queue.Sound)
    (operating pendingWritable : Bool) :
    { pipe with queue, operating, pendingWritable }.Intact stays :=
  ⟨⟨h.source, sound⟩, h.uncleaned, h.handlers⟩

theorem Pipe.Intact.advance [Transform τ] [Transform.Proper τ] {stays : HandlerId → Prop}
    {pipe : Pipe τ} (h : pipe.Intact stays) (p : PipeId) :
    (pipe.advance p).pipe.Intact stays := by
  have order := h.toInOrder.advance p
  obtain ⟨_, _, _, _, _, same, cleaned⟩ := pipe.advance_same p
  rw [same] at order ⊢
  exact ⟨order, cleaned.trans h.uncleaned, h.handlers⟩

theorem viewed_intact (p : PipeId) (stays : HandlerId → Prop) :
    Pipe.View p fun (pipe : Pipe τ) _ => pipe.Intact stays where
  calls _ _ _ h := h.of_same rfl rfl fun _ _ => id
  destination _ _ _ h := h.of_same rfl rfl fun _ _ => id
  event _ _ _ _ := id

/-- A run is in progress, in which room was made or not, and the pipe has become writable so
often. -/
structure Pipe.Runs (p : PipeId) (freed : Bool) (count : Nat) (pipe : Pipe τ)
    (journal : List Event) : Prop where
  operating : pipe.operating = true
  pending : pipe.pendingWritable = freed
  turned : turned p journal = count

/-- What an advance takes out of a full source is noted. -/
theorem Pipe.Runs.advance [Transform τ] [Transform.Candid τ] {p : PipeId} {freed : Bool}
    {count : Nat} {pipe : Pipe τ} {journal : List Event} (h : pipe.Runs p freed count journal)
    (ready : pipe.isReady) :
    (pipe.advance p).pipe.Runs p
      (freed || (pipe.source.isFull && (pipe.advance p).pipe.source.used < pipe.source.used)) count
      ((pipe.advance p).events ++ journal) := by
  have eases := eases_advance p (isReady_used ready)
  refine ⟨?_, ?_, ?_⟩
  · obtain ⟨_, _, _, _, _, same, _⟩ := pipe.advance_same p
    rw [same]
    exact h.operating
  · rw [eases.pending, h.pending]
  · rw [turned_append fun _ => turns_of_advance]
    exact h.turned

theorem viewed_runs (p : PipeId) (freed : Bool) (count : Nat) :
    Pipe.View p fun pipe : Pipe τ => pipe.Runs p freed count where
  calls _ _ _ h := ⟨h.operating, h.pending, h.turned⟩
  destination _ _ _ h := ⟨h.operating, h.pending, h.turned⟩
  event _ _ _ quiet h := ⟨h.operating, h.pending, (turned_cons quiet _).trans h.turned⟩

variable [Inhabited τ]

/-- Pipe `p` is in use and intact. -/
def Intact (p : PipeId) (stays : HandlerId → Prop) : World τ ω → Prop :=
  Shows p fun pipe _ => pipe.Intact stays

/-- A run of pipe `p` is in progress. -/
def Running (p : PipeId) (freed : Bool) (count : Nat) : World τ ω → Prop :=
  Shows p fun pipe => pipe.Runs p freed count

/-- If a ring fails to take a segment in one piece, something is left of the segment. -/
theorem Ring.ensures_offer {o : Owner τ ω} {d : RingId} {inv : World τ ω → Prop}
    (stores : ∀ data, Keeps inv (SharedRing.store o d data)) {segment : Ring} {room : Nat}
    (before : (Segments.pieces fun _ : World τ ω => True).before segment) (some : 0 < room) :
    Ensures inv (segment.writeTo (SharedRing.sink o d) room) fun outflow w =>
      (inv w ∧ (Segments.pieces fun _ : World τ ω => True).after outflow.ring) ∧
        ∀ e, outflow.result = .error e → outflow.ring.isEmpty = false := by
  have writes (offered : Bytes) : Keeps inv ((SharedRing.sink o d).write offered) := stores offered
  have pours := ensures_iff_upholds.2
    (Segments.pours _ before some fun offered => ensures_iff_upholds.1 (writes offered))
  have fails : Ensures (fun _ => True) (segment.writeTo (SharedRing.sink o d) room)
      fun outflow _ => ∀ e, outflow.result = .error e → outflow.ring.isEmpty = false := by
    obtain ⟨⟨valid, held⟩, piece, intact⟩ := before
    rw [Ring.writeTo_of_isContiguous valid intact piece held some, map_eq_pure_bind]
    have writes (offered : Bytes) : Ensures (fun _ => True)
        ((SharedRing.sink o d).write offered) fun _ _ => True := fun _ _ _ _ _ => trivial
    refine (writes _).bind fun answer => ensures_pure fun _ _ e failed => ?_
    cases answer with
    | error e' => exact beq_false_of_ne held
    | ok n => cases failed
  exact (pours.and fails).pre_imp fun _ h => ⟨h, trivial⟩

namespace Intact

variable {p : PipeId} {stays : HandlerId → Prop} {o : Owner τ ω}

theorem set_pipe {w : World τ ω} (h : Intact p stays w) {q : PipeId} {pipe : Pipe τ}
    (own : q = p → pipe.Intact stays) :
    Intact p stays { w with pipes := w.pipes.set q pipe } :=
  Shows.set_pipe h own

section Reacting

variable [Transform τ] [Transform.Candid τ]
  (reacts : ∀ handler edge, Keeps (Intact p stays) (o.react handler edge))

include reacts

/-- A run of the pipe keeps its buffers in order. -/
theorem withstands : Withstands o p (.pieces fun _ => True) (Intact p stays) where
  halts _ _ := trivial
  log _ := ensures_iff_upholds.1 (Shows.keeps_record (viewed_intact p stays) rfl)
  take w segment rest h popped := by
    obtain ⟨held, piece, sound⟩ := h.2.queue.popFront popped
    exact ⟨h.set_pipe fun _ => h.2.set_queue sound _ _, held, piece⟩
  put w segment h _ := fun ⟨valid, piece⟩ =>
    h.set_pipe fun _ => h.2.set_queue (h.2.queue.pushFront valid piece) _ _
  mark w h := h.set_pipe fun _ => h.2.set_queue h.2.queue _ _
  advance w h _ := h.set_pipe (q := p) fun _ => h.2.advance p
  store d data := ensures_iff_upholds.1
    ((Shows.handles (viewed_intact p stays)).store reacts d data)

omit [Transform τ] [Transform.Candid τ] in
theorem keeps_fail (e : Error) : Keeps (Intact p stays) (Pipe.fail o p e) :=
  (Shows.handles (viewed_intact p stays)).fail
    (fun _ => Shows.keeps_modifyPipe fun _ _ h => h.of_same rfl rfl fun _ _ => id)
    (fun _ _ announces => Shows.keeps_record (viewed_intact p stays) announces.turns_of_error)
    reacts e

theorem keeps_run : Keeps (Intact p stays) (Pipe.run o p) := by
  refine (withstands reacts).weathers.keeps_run (Shows.handles (viewed_intact p stays)).toEnters ?_
    (keeps_fail reacts) (fun _ _ => ensures_record fun _ => id) reacts
  exact fun w _ _ h => h.set_pipe fun _ => h.2.set_queue h.2.queue _ _

theorem keeps_feed {source : Source (Machine τ ω)}
    (reads : ∀ wanted, Keeps (Intact p stays) (source.read wanted))
    (ends : Keeps (Intact p stays) source.isEnded) :
    Keeps (Intact p stays) (Pipe.storeFrom o p source) := by
  refine Shows.keeps_feed (viewed_intact p stays) (keeps_run reacts) fun w h => ?_
  have read := Ring.ensures_storeFrom reads ends h.2.source
  refine (Ensures.here h read).post_imp fun intake w' ⟨h', fills⟩ => ?_
  exact Shows.set_pipe h' fun _ =>
    ⟨⟨fills.valid, h'.2.queue⟩, fills.cleaned.trans h.2.uncleaned, h'.2.handlers⟩

end Reacting

end Intact

namespace Running

variable {p : PipeId} {freed : Bool} {count : Nat} {o : Owner τ ω}

/-- A run that is started inside another one of the pipe does nothing. -/
theorem keeps_run [Transform τ] : Keeps (Running p freed count) (Pipe.run o p) := by
  refine Shows.keeps_during (viewed_runs p freed count) (.pointwise fun w h => .at_getPipe ?_) p
  rw [if_pos h.2.operating]
  exact .here h (Shows.keeps_record (viewed_runs p freed count) rfl)

theorem keeps_fail (reacts : ∀ handler edge, Keeps (Running p freed count) (o.react handler edge))
    (e : Error) : Keeps (Running p freed count) (Pipe.fail o p e) :=
  (Shows.handles (viewed_runs p freed count)).fail
    (fun _ => Shows.keeps_modifyPipe fun _ _ h => ⟨h.operating, h.pending, h.turned⟩)
    (fun _ _ announces => Shows.keeps_record (viewed_runs p freed count) announces.turns_of_error)
    reacts e

end Running

/-- A run is in progress of a pipe that is intact. -/
def Noted (p : PipeId) (stays : HandlerId → Prop) (count : Nat) (freed : Bool) (w : World τ ω) :
    Prop :=
  Intact p stays w ∧ Running p freed count w

namespace Noted

variable {p : PipeId} {stays : HandlerId → Prop} {count : Nat} {freed : Bool} {o : Owner τ ω}

theorem set_pipe {w : World τ ω} (h : Noted p stays count freed w) {pipe : Pipe τ} {noted : Bool}
    (intact : pipe.Intact stays) (operating : pipe.operating = true)
    (pending : pipe.pendingWritable = noted) :
    Noted p stays count noted { w with pipes := w.pipes.set p pipe } :=
  ⟨h.1.set_pipe fun _ => intact,
    Table.set_self (P := fun pipe : Pipe τ => pipe.Runs p noted count w.journal)
      ⟨operating, pending, h.2.2.turned⟩⟩

theorem keeps_log (entry : LogRecord) :
    Keeps (Noted (τ := τ) (ω := ω) p stays count freed) (log entry) :=
  Ensures.and (Shows.keeps_record (viewed_intact p stays) rfl)
    (Shows.keeps_record (viewed_runs p freed count) rfl)

section Reacting

variable (spares : ∀ handler edge, Keeps (Intact p stays) (o.react handler edge))
  (reacts : ∀ freed handler edge, Keeps (Running p freed count) (o.react handler edge))

include spares reacts

/-- What is noted of a segment is what the flag says. -/
theorem ensures_pour {w : World τ ω} {segment : Ring} {rest : Queue}
    (h : Noted p stays count freed w)
    (popped : (w.pipes.get p).queue.popFront = some (segment, rest))
    (room : 0 < (w.rings.get (w.pipes.get p).destination).ring.free) :
    Ensures (· = w.changed p fun pipe => { pipe with queue := rest })
      (segment.writeTo (SharedRing.sink o (w.pipes.get p).destination)
        (w.rings.get (w.pipes.get p).destination).ring.free)
      fun outflow =>
        outflow.Returns p (Noted p stays count (freed || outflow.ring.isEmpty)) := by
  have intact := Shows.handles (ω := ω) (viewed_intact (τ := τ) p stays)
  have running := Shows.handles (ω := ω) (viewed_runs (τ := τ) p freed count)
  have stores (data : Bytes) :
      Keeps (Noted p stays count freed) (SharedRing.store o (w.pipes.get p).destination data) :=
    Ensures.and (intact.store spares _ data) (running.store (reacts freed) _ data)
  obtain ⟨held, piece, sound⟩ := h.1.2.queue.popFront popped
  have taken := h.set_pipe (h.1.2.set_queue sound _ _) h.2.2.operating h.2.2.pending
  refine (Ensures.here taken (Ring.ensures_offer stores ⟨held, piece⟩ room)).post_imp ?_
  rintro outflow w ⟨⟨h, valid, piece⟩, failed⟩
  have back (pending : Bool) :=
    h.1.2.set_queue (h.1.2.queue.pushFront valid piece) (w.pipes.get p).operating pending
  refine ⟨fun cleaned => ?_, fun _ left => ?_, fun _ _ _ drained => ?_⟩
  · rw [h.1.2.uncleaned] at cleaned
    cases cleaned
  · -- Something is left of a segment that failed, so there is nothing to note.
    have some : outflow.ring.isEmpty = false := by
      cases result : outflow.result with
      | error e => exact failed e result
      | ok written => exact left written result
    rw [some, Bool.or_false]
    exact h.set_pipe (back _) h.2.2.operating h.2.2.pending
  · rw [drained, Bool.or_true]
    have put_back := h.set_pipe (back (w.pipes.get p).pendingWritable) h.2.2.operating h.2.2.pending
    exact put_back.set_pipe (put_back.1.2.set_queue put_back.1.2.queue _ true)
      put_back.2.2.operating rfl

variable [Transform τ] [Transform.Candid τ]

omit spares reacts in
/-- What the transform takes out of a full source is noted, also if it ends with an error. -/
theorem ensures_call {w : World τ ω} (h : Noted p stays count freed w) :
    Ensures (· = w) (Pipe.transformOnce p) fun _ w' =>
      Noted p stays count (freed || ((w.pipes.get p).source.isFull &&
        (w'.pipes.get p).source.used < (w.pipes.get p).source.used)) w' := by
  refine .at_getPipe ?_
  split
  · rename_i ready
    refine .at_modifyPipe (.at_recordAll (ensures_insist fun _ _ => ?_))
    rintro _ rfl
    dsimp only
    rw [Table.get_set, if_pos rfl]
    have advanced := h.1.set_pipe (q := p) fun _ => h.1.2.advance p
    exact ⟨advanced, advanced.1, by
      simpa using h.2.2.advance ready⟩
  · refine ensures_pure ?_
    rintro _ rfl
    simpa using h

/-- All through a run, the flag is what was noted. -/
theorem follows : (Pipe.noting o).Follows o o p True (Noted p stays count) :=
  Manner.follows_noting (fun _ => keeps_log) (ensures_pour spares reacts) ensures_call

omit [Transform τ] [Transform.Candid τ] in
theorem keeps_fail (freed : Bool) (e : Error) :
    Keeps (Noted p stays count freed) (Pipe.fail o p e) :=
  Ensures.and (Intact.keeps_fail spares e) (Running.keeps_fail (reacts freed) e)

end Reacting

end Noted

/-! ## To go by what was noted changes nothing -/

section Equality

variable {p : PipeId} {stays : HandlerId → Prop} {busy : Bool} {o : Owner τ ω} {w : World τ ω}

/-- A run begins with nothing noted. -/
theorem Noted.begun (intact : Intact p stays w) (operates : Operates p busy w)
    (idle : (w.pipes.get p).operating = false) :
    Noted p stays (turned p (w.begun p).journal) false (w.begun p) := by
  have rests : busy = false := operates.2.operating.symm.trans idle
  exact ⟨Shows.begun (intact.2.set_queue intact.2.queue _ _),
    Shows.begun ⟨rfl, operates.2.due rests, rfl⟩⟩

variable [Transform τ] [Transform.Candid τ]
  (spares : ∀ handler edge, Keeps (Intact p stays) (o.react handler edge))
  (idles : ∀ handler edge, Preserves (Operates p false) (o.react handler edge))
  (reacts : ∀ freed count handler edge, Keeps (Running p freed count) (o.react handler edge))

include spares idles reacts

end Equality

end ByteFlow
