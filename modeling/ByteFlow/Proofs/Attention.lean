/-
# A pipe that is attended to

Edges fire on transitions only, and a run that is asked for while another is in progress does
nothing. That no output is stranded all the same is because of two things that hold throughout: the
listener of a pipe observes the destination, whichever ring that is, and whoever makes room there
owes the pipe a run until the listener was told.

`Attended` keeps track of both. What is owed depends on the phase the pipe is in: nothing while a
run is in progress, for the run looks at everything again before it ends; a run while one is due;
and at rest, unless the pipe has failed, nothing waits beside free space.

This module shows that what happens elsewhere, other pipes and their runs included, keeps each
phase. The runs of the pipe itself are in `ByteFlow.Proofs.Settling`.
-/

import ByteFlow.Proofs.Advance
import ByteFlow.Proofs.Conduct
import ByteFlow.Proofs.Elsewhere

namespace ByteFlow

open Machine

variable {τ ω : Type}

/-- What a pipe needs to be resumed: its listener is where room can appear, and nothing that it
works with was cleaned. Rings in `R` are those that can be a destination, and the destination has
capacity `size`, whichever of them it is. -/
structure Served (p : PipeId) (R : RingId → Prop) (size : Nat) (pipe : Pipe τ)
    (rings : Table SharedRing) : Prop where
  inUse : pipe.destination < rings.next
  inRange : R pipe.destination
  ring : ∀ r, R r → (rings.get r).ring.Valid ∧ (rings.get r).ring.cleaned = false
  capacity : (rings.get pipe.destination).ring.capacity = size
  listens : .listener p ∈ (rings.get pipe.destination).observers
  held : pipe.held = true
  source : pipe.source.Valid
  intact : pipe.source.cleaned = false
  queue : pipe.queue.Sound

/-- What the pipe does not need can change. -/
theorem Served.update {p : PipeId} {R : RingId → Prop} {size : Nat} {pipe after : Pipe τ}
    {rings : Table SharedRing} (h : Served p R size pipe rings)
    (destination : after.destination = pipe.destination) (held : after.held = pipe.held)
    (source : after.source.Valid ∧ after.source.cleaned = false) (queue : after.queue.Sound) :
    Served p R size after rings where
  inUse := destination ▸ h.inUse
  inRange := destination ▸ h.inRange
  ring := h.ring
  capacity := destination ▸ h.capacity
  listens := destination ▸ h.listens
  held := held.trans h.held
  source := source.1
  intact := source.2
  queue := queue

/-- Nothing waits beside free space. -/
def Spent (pipe : Pipe τ) (destination : Ring) : Prop :=
  pipe.queue.isEmpty ∨ destination.free = 0

/-- What a pipe is at. -/
inductive Phase where
  /-- A run is in progress. -/
  | running
  /-- A run is in progress that has failed. -/
  | failing
  /-- No run is in progress, but one is about to begin. -/
  | due
  /-- No run is in progress, and none is owed. -/
  | resting

/-- What a phase says of a pipe and its destination. -/
def Phase.Holds : Phase → Pipe τ → Ring → Prop
  | .running, pipe, _ => pipe.operating = true
  | .failing, pipe, _ => pipe.operating = true ∧ pipe.failure ≠ none
  | .due, pipe, _ => pipe.operating = false
  | .resting, pipe, destination =>
    pipe.operating = false ∧ (pipe.failure = none → Spent pipe destination)

/-- A phase depends on no more of a pipe than this, and room can disappear in every phase. -/
theorem Phase.Holds.of_same {phase : Phase} {pipe after : Pipe τ} {ring ring' : Ring}
    (h : phase.Holds pipe ring) (operating : after.operating = pipe.operating)
    (failure : after.failure = pipe.failure) (queue : after.queue = pipe.queue)
    (full : ring.free = 0 → ring'.free = 0) : phase.Holds after ring' := by
  cases phase with
  | running => exact operating.trans h
  | failing => exact ⟨operating.trans h.1, failure ▸ h.2⟩
  | due => exact operating.trans h
  | resting =>
      refine ⟨operating.trans h.1, fun none => ?_⟩
      rw [failure] at none
      unfold Spent
      rw [queue]
      exact (h.2 none).imp_right full

/-- The phase that a pipe is in when there may be room now that it was not told of. A run that is in
progress will see for itself; a pipe at rest is owed a run. -/
def Phase.owed : Phase → Phase
  | .resting => .due
  | phase => phase

/-- Whatever becomes of the destination, no more than a run is owed. -/
theorem Phase.Holds.owed {phase : Phase} {pipe : Pipe τ} {ring : Ring} (h : phase.Holds pipe ring)
    (ring' : Ring) : phase.owed.Holds pipe ring' := by
  cases phase with
  | running => exact h
  | failing => exact h
  | due => exact h
  | resting => exact h.1

variable [Inhabited τ]

/-- The pipe is served, and `state` holds of it and of its destination. -/
def Attended (p : PipeId) (R : RingId → Prop) (size : Nat) (state : Pipe τ → Ring → Prop)
    (w : World τ ω) : Prop :=
  p < w.pipes.next ∧ Served p R size (w.pipes.get p) w.rings ∧
    state (w.pipes.get p) (w.rings.get (w.pipes.get p).destination).ring

namespace Attended

variable {p : PipeId} {R : RingId → Prop} {size : Nat} {state : Pipe τ → Ring → Prop}
  {phase : Phase} {w w' : World τ ω}

/-! ## Changes to the world -/

theorem set_pipe {pipe : Pipe τ} (served : Served p R size pipe w.rings)
    (holds : state pipe (w.rings.get pipe.destination).ring) :
    Attended p R size state { w with pipes := w.pipes.set p pipe } :=
  Table.set_self (P := fun pipe =>
    Served p R size pipe w.rings ∧ state pipe (w.rings.get pipe.destination).ring) ⟨served, holds⟩

theorem set_other_pipe (h : Attended p R size state w) {q : PipeId} (other : q ≠ p)
    (pipe : Pipe τ) : Attended p R size state { w with pipes := w.pipes.set q pipe } :=
  Table.set_other (P := fun pipe =>
    Served p R size pipe w.rings ∧ state pipe (w.rings.get pipe.destination).ring) h other pipe

theorem set_observers (h : Attended p R size state w) (r : RingId) {observers : List Observer}
    (listens : .listener p ∈ (w.rings.get r).observers → .listener p ∈ observers) :
    Attended p R size state
      { w with rings := w.rings.set r { w.rings.get r with observers } } := by
  have same := ring_set_observers w.rings r observers
  refine ⟨h.1, { h.2.1 with inUse := ?_, ring := ?_, capacity := ?_, listens := ?_ }, ?_⟩
  · exact Table.lt_next_set_of_lt h.2.1.inUse _ _
  · intro s range
    rw [same]
    exact h.2.1.ring s range
  · rw [same]
    exact h.2.1.capacity
  · rw [Table.get_set]
    split
    · rename_i eq
      have before := h.2.1.listens
      rw [← eq] at before
      exact listens before
    · exact h.2.1.listens
  · change state _ ((w.rings.set r _).get _).ring
    rw [same]
    exact h.2.2

theorem set_ring {state' : Pipe τ → Ring → Prop} (h : Attended p R size state w) {r : RingId}
    {ring : Ring}
    (sound : R r →
      ring.Valid ∧ ring.cleaned = false ∧ ring.capacity = (w.rings.get r).ring.capacity)
    (own : r = (w.pipes.get p).destination → state' (w.pipes.get p) ring)
    (others : r ≠ (w.pipes.get p).destination →
      state' (w.pipes.get p) (w.rings.get (w.pipes.get p).destination).ring) :
    Attended p R size state' { w with rings := w.rings.set r { w.rings.get r with ring } } := by
  refine ⟨h.1, { h.2.1 with inUse := ?_, ring := ?_, capacity := ?_, listens := ?_ }, ?_⟩
  · exact Table.lt_next_set_of_lt h.2.1.inUse _ _
  · intro s range
    rw [Table.get_set]
    split
    · rename_i eq
      obtain ⟨valid, intact, _⟩ := sound (eq ▸ range)
      exact ⟨valid, intact⟩
    · exact h.2.1.ring s range
  · rw [Table.get_set]
    split
    · rename_i eq
      obtain ⟨_, _, same⟩ := sound (eq ▸ h.2.1.inRange)
      rw [eq] at same
      exact same.trans h.2.1.capacity
    · exact h.2.1.capacity
  · rw [Table.get_set]
    split
    · rename_i eq
      rw [eq]
      exact h.2.1.listens
    · exact h.2.1.listens
  · change state' _ ((w.rings.set r _).get _).ring
    rw [Table.get_set]
    split
    · rename_i eq
      exact own eq
    · rename_i ne
      exact others ne

theorem untouched (h : Attended p R size phase.Holds w) (untouched : Untouched p R w w') :
    Attended p R size phase.Holds w' := by
  obtain ⟨handlers, same⟩ := untouched.pipe
  have served := h.2.1
  refine ⟨untouched.inUse, ?_⟩
  rw [same]
  refine ⟨{ served with
    inUse := untouched.destinationInUse, ring := ?_, capacity := ?_, listens := ?_ },
    h.2.2.of_same rfl rfl rfl ?_⟩
  · intro r range
    exact ⟨untouched.valid r range (served.ring r range).1,
      (untouched.cleaned r range).trans (served.ring r range).2⟩
  · exact (congrArg Ring.capacity untouched.destination).trans served.capacity
  · exact (untouched.listeners _ served.inRange p).2 served.listens
  · change _ → (w'.rings.get (w.pipes.get p).destination).ring.free = 0
    rw [untouched.destination]
    exact id

theorem of_same (h : Attended p R size phase.Holds w) {pipe : Pipe τ}
    (same : ∃ scratch transform handlers pendingWritable calls, pipe =
      { w.pipes.get p with scratch, transform, handlers, pendingWritable, calls }) :
    Attended p R size phase.Holds { w with pipes := w.pipes.set p pipe } := by
  obtain ⟨_, _, _, _, _, rfl⟩ := same
  have served := h.2.1
  refine set_pipe ?_ (h.2.2.of_same rfl rfl rfl id)
  exact served.update rfl rfl ⟨served.source, served.intact⟩ served.queue

/-! ## Bookkeeping -/

theorem keeps_detach (r : RingId) {observer : Observer} (other : observer ≠ .listener p) :
    Keeps (Attended (τ := τ) (ω := ω) p R size phase.Holds) (detach r observer) := by
  refine ensures_modifyShared fun w h => h.set_observers r fun listens => ?_
  exact List.mem_filter.2 ⟨listens, decide_eq_true other.symm⟩

theorem keeps_attach (r : RingId) (observer : Observer) :
    Keeps (Attended (τ := τ) (ω := ω) p R size phase.Holds) (attach r observer) :=
  ensures_modifyShared fun _ h => h.set_observers r fun listens => mem_enlist.2 (.inl listens)

theorem keeps_record (event : Event) :
    Keeps (Attended (τ := τ) (ω := ω) p R size phase.Holds) (record event) :=
  ensures_record fun _ => id

/-- The pipe is held, so its listener is not taken away when a call ends. -/
theorem steady : Steady (Attended (τ := τ) (ω := ω) p R size phase.Holds) where
  log _ := keeps_record _
  announce _ _ _ := keeps_record _
  count q f := by
    apply ensures_modifyPipe
    intro w h
    by_cases own : q = p
    · rw [own]
      exact h.of_same ⟨_, _, _, _, _, rfl⟩
    · exact h.set_other_pipe own _
  retire q := by
    refine .pointwise fun w h => .at_getPipe ?_
    by_cases own : q = p
    · have alive : (w.pipes.get q).isAlive = true := by
        rw [own, Pipe.isAlive, h.2.1.held]
        rfl
      rw [alive]
      exact .here h (keeps_pure _)
    · split
      · exact .here h (keeps_detach _ fun same => own (Observer.listener.inj same))
      · exact .here h (keeps_pure _)

section Reacting

variable {o : Owner τ ω}
  (reacts : ∀ phase handler edge,
    Keeps (Attended p R size (Phase.Holds phase) : World τ ω → Prop) (o.react handler edge))

/-! ## Storing into rings -/

/-- Bytes that come into a ring take room away and owe nobody anything. -/
theorem fills (h : Attended p R size phase.Holds w) {r : RingId} {moved : Bytes} {ring : Ring}
    (fills : R r → (w.rings.get r).ring.Fills moved ring) :
    Attended p R size phase.Holds
      { w with rings := w.rings.set r { w.rings.get r with ring } } := by
  refine h.set_ring ?_ ?_ fun _ => h.2.2
  · intro range
    exact ⟨(fills range).valid, (fills range).cleaned.trans (h.2.1.ring r range).2,
      (fills range).capacity⟩
  · rintro rfl
    have range := h.2.1.inRange
    exact h.2.2.of_same rfl rfl rfl ((fills range).full (h.2.1.ring _ range).1)

include reacts

theorem keeps_store (r : RingId) (data : Bytes) :
    Keeps (Attended p R size phase.Holds) (SharedRing.store o r data) := by
  refine Machine.ensures_store (fun w h => ?_) fun _ => steady.hosts.fireReadable (reacts phase) r
  exact h.fills fun range => Ring.fills_store (h.2.1.ring r range).1 data

theorem keeps_fill {r : RingId} {source : Source (Machine τ ω)}
    (reads : ∀ wanted, Keeps (Attended p R size phase.Holds) (source.read wanted))
    (ends : Keeps (Attended p R size phase.Holds) source.isEnded)
    (leaves : (∀ wanted, Leaves (fun w => (w.rings.get r).ring) (source.read wanted)) ∧
      Leaves (fun w => (w.rings.get r).ring) source.isEnded) :
    Keeps (Attended p R size phase.Holds) (SharedRing.storeFrom o r source) := by
  refine .pointwise fun w h => .at_getRing ?_
  have read : Ensures
      (fun w' => Attended p R size phase.Holds w' ∧ (w'.rings.get r).ring = (w.rings.get r).ring)
      ((w.rings.get r).ring.storeFrom source) fun intake w' =>
        (Attended p R size phase.Holds w' ∧ (w'.rings.get r).ring = (w.rings.get r).ring) ∧
          (R r → (w.rings.get r).ring.Fills intake.moved intake.ring) := by
    by_cases range : R r
    · have moves := Ring.ensures_storeFrom
        (fun wanted => (leaves.1 wanted).keeps_and (reads wanted) (w.rings.get r).ring)
        (leaves.2.keeps_and ends (w.rings.get r).ring) (h.2.1.ring r range).1
      exact moves.post_imp fun _ _ ⟨kept, fills⟩ => ⟨kept, fun _ => fills⟩
    · have moves := Ring.keeps_storeFrom
        (fun wanted => (leaves.1 wanted).keeps_and (reads wanted) (w.rings.get r).ring)
        (leaves.2.keeps_and ends (w.rings.get r).ring) (w.rings.get r).ring
      exact moves.post_imp fun _ _ kept => ⟨kept, fun inside => (range inside).elim⟩
  refine Ensures.bind (.here ⟨h, rfl⟩ read) fun intake => ?_
  refine .pointwise fun w' ⟨⟨h, same⟩, fills⟩ => .at_modifyShared ?_
  rw [← same] at fills
  refine .here (h.fills fills) ?_
  cases intake.result with
  | error e => exact keeps_pure _
  | ok stored => exact steady.hosts.perhaps (steady.hosts.fireReadable (reacts phase) r) _ _

/-! ## Other pipes -/

/-- The attention that a pipe gets does not depend on any other pipe. -/
theorem blind [Transform τ] {q : PipeId} (other : q ≠ p) :
    Blind o q (Attended p R size phase.Holds) where
  toSteady := steady
  own _ _ := ensures_record fun _ => id
  advanced _ := ensures_recordAll fun _ => id
  pipe _ pipe h := h.set_other_pipe other pipe
  attach r := keeps_attach r _
  detach r := keeps_detach r fun same => other (Observer.listener.inj same)
  store := keeps_store reacts
  reacts := reacts phase

end Reacting

end Attended

end ByteFlow
