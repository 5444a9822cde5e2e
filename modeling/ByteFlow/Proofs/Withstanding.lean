/-
# The steps of a run

Between the moments at which handlers can look at the world, a run takes few steps: it takes a
segment out of the queue and puts back what is left of it, notes that it has made room, and calls
the transform. An invariant that withstands each of these, and the stores into destinations, holds
all through the run, however the loops of the run go.

`Unloads` and `Weathers` say what this asks of each step. Mostly the invariant does not care which
ring a store goes to, nor at which moment; `Withstands` is about these.

What is asked of a halt is a parameter. For an invariant that only has to hold where runs come to
their end it is nothing; for one that has to survive a halt too it is the invariant itself.
-/

import ByteFlow.Proofs.Survival

namespace ByteFlow.Machine

variable {τ ω : Type}

/-- What is to hold where runs come to their end, halting in between or not. -/
theorem ensures_iff_upholds {α : Type} {pre : World τ ω → Prop} {m : Machine τ ω α}
    {post : α → World τ ω → Prop} :
    Ensures pre m post ↔ Upholds (fun _ => True) pre m post := by
  constructor
  · intro h w holds
    cases ran : m w with
    | ok a w' => exact h holds ran
    | error halt w' => trivial
  · intro h w a w' holds ran
    have out := h holds
    rw [ran] at out
    exact out

theorem Upholds.ensures {α : Type} {halted pre : World τ ω → Prop} {m : Machine τ ω α}
    {post : α → World τ ω → Prop} (h : Upholds halted pre m post) : Ensures pre m post :=
  ensures_iff_upholds.2 (h.halt_imp fun _ _ => trivial)

theorem closed_upholds (halted inv : World τ ω → Prop) :
    Closed fun _ (m : Machine τ ω _) => Upholds halted inv m fun _ => inv where
  gives _ := upholds_pure fun _ => id
  looks := fun _ => id
  andThen := Upholds.bind

variable [Inhabited τ]

/-- The bookkeeping around calls leaves the invariant alone, also where it halts. -/
structure Stable (inv : World τ ω → Prop) : Prop where
  log : ∀ entry, Preserves inv (log entry)
  announce : ∀ {emitter edge}, edge.IsOrdinary → ∀ {event}, event.Announces emitter edge →
    Preserves inv (record event)
  /-- A call of a pipe begins or ends. -/
  count : ∀ p (f : Nat → Nat),
    Preserves inv (modifyPipe p fun pipe => { pipe with calls := f pipe.calls })
  detach : ∀ r observer, Preserves inv (detach r observer)

theorem Stable.during {α : Type} {inv : World τ ω → Prop} (stable : Stable inv)
    {body : Machine τ ω α} (h : Preserves inv body) (p : PipeId) :
    Preserves inv (Pipe.during p body) := by
  apply (stable.count p (· + 1)).bind
  intro _
  apply h.ensuring
  apply (stable.count p (· - 1)).bind
  intro _
  exact (closed_preserves inv).retire fun r => stable.detach r _

theorem Stable.enters {inv : World τ ω → Prop} (stable : Stable inv) :
    Enters fun _ (m : Machine τ ω _) => Preserves inv m where
  toClosed := closed_preserves inv
  log := stable.log
  announce passes := stable.announce passes.isOrdinary
  listen p _ h := by
    apply ((closed_preserves inv).getPipe p).bind
    intro pipe
    split
    · exact stable.during h p
    · exact preserves_pure _
  called := stable.during

/-- What is known of a segment while it is out of the queue, before and after bytes of it were
written, whatever the writing does. -/
structure Segments (halted : World τ ω → Prop) where
  before : Ring → Prop
  after : Ring → Prop
  pours : ∀ {inv : World τ ω → Prop} {sink : Sink (Machine τ ω)} {segment : Ring} {room : Nat},
    before segment → 0 < room → (∀ offered, Upholds halted inv (sink.write offered) fun _ => inv) →
      Upholds halted inv (segment.writeTo sink room) fun outflow w => inv w ∧ after outflow.ring

/-- Nothing in particular is known. -/
def Segments.any (halted : World τ ω → Prop) : Segments halted where
  before _ := True
  after _ := True
  pours _ _ writes :=
    (Ring.closed_writeTo (closed_upholds halted _) writes _ _).of_imp (fun _ => id)
      fun _ _ h => ⟨h, trivial⟩

omit [Inhabited τ] in
/-- A segment in one piece is written at once, so it is enough that the ring takes it then. -/
theorem upholds_writeTo_piece {halted pre inv : World τ ω → Prop} {sink : Sink (Machine τ ω)}
    {segment : Ring} {room : Nat} (valid : segment.Valid) (held : segment.used ≠ 0)
    (piece : segment.isContiguous) (intact : segment.cleaned = false) (some : 0 < room)
    (writes : ∀ offered, Upholds halted pre (sink.write offered) fun _ => inv) :
    Upholds halted pre (segment.writeTo sink room) fun outflow w =>
      inv w ∧ outflow.ring.used ≤ segment.used ∧
        outflow.ring.Valid ∧ outflow.ring.isContiguous ∧ outflow.ring.cleaned = false := by
  rw [Ring.writeTo_of_isContiguous valid intact piece held some, map_eq_pure_bind]
  refine Upholds.bind (writes _) fun answer => upholds_pure fun w h => ⟨h, ?_⟩
  have content := (List.take_append_drop room segment.toList).symm
  obtain ⟨drains, _⟩ := Ring.drains_afterOffer valid content answer
  have left := drains.length_add_used valid
  exact ⟨left ▸ Nat.le_add_left _ _, drains.valid,
    Ring.isContiguous_afterOffer valid piece content answer, drains.cleaned.trans intact⟩

/-- Segments are in one piece, and stay so. -/
def Segments.pieces (halted : World τ ω → Prop) : Segments halted where
  before segment :=
    (segment.Valid ∧ segment.used ≠ 0) ∧ segment.isContiguous ∧ segment.cleaned = false
  after segment := segment.Valid ∧ segment.isContiguous ∧ segment.cleaned = false
  pours := fun ⟨⟨valid, held⟩, piece, intact⟩ some writes =>
    (upholds_writeTo_piece valid held piece intact some writes).of_imp (fun _ => id)
      fun _ _ h => ⟨h.1, h.2.2⟩

/-! ## Draining -/

/-- The invariant holds as soon as what is left of a segment is back in the queue of pipe `p`; or at
once, if the pipe was cleaned meanwhile. -/
structure Restores (p : PipeId) (inv : World τ ω → Prop) (segment : Ring) (w : World τ ω) :
    Prop where
  cleaned : (w.pipes.get p).source.cleaned = true → inv w
  put : (w.pipes.get p).source.cleaned = false →
    inv { w with pipes := w.pipes.set p { w.pipes.get p with
      queue := (w.pipes.get p).queue.pushFront segment } }

/-- The invariant survives the steps in which the queue of pipe `p` is drained. -/
structure Unloads (o : Owner τ ω) (p : PipeId) (halted inv : World τ ω → Prop) : Prop where
  /-- A run may be stopped at any moment. -/
  halts : ∀ w, inv w → halted w
  log : ∀ entry, Upholds halted inv (log entry) fun _ => inv
  /-- The head segment is taken out of the queue, and written. While it is out the invariant need
  not hold, but what is left of the segment restores it. -/
  pours : ∀ w segment rest, inv w → (w.pipes.get p).queue.popFront = some (segment, rest) →
    0 < (w.rings.get (w.pipes.get p).destination).ring.free →
    Upholds halted
      (· = { w with pipes := w.pipes.set p { w.pipes.get p with queue := rest } })
      (segment.writeTo (SharedRing.sink o (w.pipes.get p).destination)
        (w.rings.get (w.pipes.get p).destination).ring.free)
      fun outflow => Restores p inv outflow.ring
  /-- Room was made. -/
  mark : ∀ w, inv w →
    inv { w with pipes := w.pipes.set p { w.pipes.get p with pendingWritable := true } }

section Draining

variable {o : Owner τ ω} {p : PipeId} {halted inv : World τ ω → Prop}

theorem Unloads.drainInto (h : Unloads o p halted inv) (d : RingId) (passes count : Nat) :
    Upholds halted inv (Pipe.drainInto o p d passes count) fun _ => inv := by
  have closed := closed_upholds halted inv
  induction passes generalizing count with
  | zero => exact upholds_throw h.halts
  | succ passes ih =>
      refine .pointwise fun w holds => .at_getPipe (.at_getRing ?_)
      dsimp only
      split
      · exact .here holds (closed.gives _)
      · rename_i goes_on
        have room := Nat.pos_of_ne_zero (not_or.1 goes_on).1
        split
        · exact .here holds (closed.gives _)
        · rename_i segment rest popped
          obtain rfl := Decidable.not_not.1 (not_or.1 goes_on).2
          -- Handlers run while the segment is out of the queue: the pipe is looked at again.
          refine .at_modifyPipe ((h.pours w segment rest holds popped room).bind ?_)
          intro outflow
          refine .pointwise fun w' restores => .at_getPipe ?_
          split
          · rename_i cleaned
            exact .here (restores.cleaned cleaned)
              (closed.andThen (h.log _) fun _ => closed.gives _)
          · rename_i intact
            refine .at_modifyPipe (.here (restores.put (Bool.eq_false_iff.2 intact)) ?_)
            cases outflow.result with
            | error e => exact closed.gives _
            | ok written =>
                have onward : Upholds halted inv (if written = 0 then pure (.ok (.moved count))
                    else Pipe.drainInto o p (w.pipes.get p).destination passes
                      (count + written)) fun _ => inv := by
                  split
                  · exact closed.gives _
                  · exact ih _
                have marks : Upholds halted inv
                    (modifyPipe p fun pipe => { pipe with pendingWritable := true }) fun _ => inv :=
                  upholds_modifyPipe h.mark
                dsimp only
                split
                · exact closed.andThen marks fun _ => onward
                · exact onward

theorem Unloads.drain (h : Unloads o p halted inv) :
    Upholds halted inv (Pipe.drain o p) fun _ => inv := by
  have closed := closed_upholds halted inv
  apply closed.andThen (closed.getPipe p)
  intro pipe
  apply closed.andThen (h.drainInto _ _ _)
  intro drained
  rcases drained with e | cleaned | count
  · exact closed.gives _
  · exact closed.gives _
  · dsimp only
    split
    · exact closed.andThen (h.log _) fun _ => closed.gives _
    · exact closed.gives _

end Draining

/-! ## Whole runs -/

variable [Transform τ]

/-- The invariant survives the steps of runs of pipe `p`. -/
structure Weathers (o : Owner τ ω) (p : PipeId) (halted inv : World τ ω → Prop) : Prop
    extends Unloads o p halted inv where
  /-- The transform is called. -/
  advance : ∀ w, inv w → (w.pipes.get p).isReady →
    inv { w with
      pipes := w.pipes.set p ((w.pipes.get p).advance p).pipe
      journal := ((w.pipes.get p).advance p).events ++ w.journal }

section Steps

variable {o : Owner τ ω} {p : PipeId} {halted inv : World τ ω → Prop}

theorem Weathers.transformOnce (h : Weathers o p halted inv) :
    Upholds halted inv (Pipe.transformOnce p) fun _ => inv := by
  refine .pointwise fun w holds => .at_getPipe ?_
  split
  · rename_i ready
    have records : Upholds halted
        (· = { w with pipes := w.pipes.set p ((w.pipes.get p).advance p).pipe })
        (recordAll ((w.pipes.get p).advance p).events) fun _ => inv := by
      rintro _ rfl
      exact h.advance w holds ready
    refine .at_modifyPipe (records.bind fun _ => ?_)
    cases ((w.pipes.get p).advance p).outcome with
    | ok answer => exact upholds_pure fun _ => id
    | error misuse => exact upholds_throw h.halts
  · exact .here holds (upholds_pure fun _ => id)

theorem Weathers.settle (h : Weathers o p halted inv) (passes : Nat) :
    Upholds halted inv (Pipe.settle o p passes) fun _ => inv :=
  (closed_upholds halted inv).settle (fun _ => upholds_throw h.halts) h.drain h.transformOnce passes

theorem Weathers.operate (h : Weathers o p halted inv)
    (fails : ∀ e, Upholds halted inv (Pipe.fail o p e) fun _ => inv) :
    Upholds halted inv (Pipe.operate o p) fun _ => inv :=
  (closed_upholds halted inv).operate (h.settle _) fails

end Steps

/-- The invariant withstands the steps of runs of pipe `p`. -/
structure Withstands (o : Owner τ ω) (p : PipeId) {halted : World τ ω → Prop}
    (segments : Segments halted) (inv : World τ ω → Prop) : Prop where
  /-- A run may be stopped at any moment. -/
  halts : ∀ w, inv w → halted w
  log : ∀ entry, Upholds halted inv (log entry) fun _ => inv
  /-- The head segment is taken out of the queue. -/
  take : ∀ w segment rest, inv w → (w.pipes.get p).queue.popFront = some (segment, rest) →
    inv { w with pipes := w.pipes.set p { w.pipes.get p with queue := rest } } ∧
      segments.before segment
  /-- What is left of a segment comes back. -/
  put : ∀ w segment, inv w → (w.pipes.get p).source.cleaned = false → segments.after segment →
    inv { w with pipes := w.pipes.set p { w.pipes.get p with
      queue := (w.pipes.get p).queue.pushFront segment } }
  /-- Room was made. -/
  mark : ∀ w, inv w →
    inv { w with pipes := w.pipes.set p { w.pipes.get p with pendingWritable := true } }
  /-- The transform is called. -/
  advance : ∀ w, inv w → (w.pipes.get p).isReady →
    inv { w with
      pipes := w.pipes.set p ((w.pipes.get p).advance p).pipe
      journal := ((w.pipes.get p).advance p).events ++ w.journal }
  store : ∀ d data, Upholds halted inv (SharedRing.store o d data) fun _ => inv

theorem Withstands.weathers {o : Owner τ ω} {p : PipeId} {halted inv : World τ ω → Prop}
    {segments : Segments halted} (h : Withstands o p segments inv) :
    Weathers o p halted inv where
  halts := h.halts
  log := h.log
  pours w segment rest holds popped room := by
    obtain ⟨taken, before⟩ := h.take w segment rest holds popped
    have stores (data : Bytes) :
        Upholds halted inv ((SharedRing.sink o (w.pipes.get p).destination).write data)
          fun _ => inv := h.store _ data
    have pours := Upholds.here taken (segments.pours before room stores)
    exact pours.of_imp (fun _ => id) fun outflow w' ⟨holds, after⟩ =>
      ⟨fun _ => holds, fun intact => h.put w' _ holds intact after⟩
  mark := h.mark
  advance := h.advance

/-! ## The shape of calls

What calls of a pipe do, given what their parts do. -/

section Shape

variable {K : ∀ α : Type, Machine τ ω α → Prop} {o : Owner τ ω} {q : PipeId}

theorem Enters.run (enters : Enters K)
    (begins : K _ (modifyPipe q fun pipe => { pipe with operating := true }))
    (operates : K _ (tryCatch (Pipe.operate o q) fun halt => do
      let _ ← Pipe.release q
      throw halt))
    (releases : K _ (Pipe.release q))
    (signals : ∀ event, event.Signals q → K _ (record event))
    (reacts : ∀ handler edge, K _ (o.react handler edge)) : K _ (Pipe.run o q) := by
  refine enters.called ?_ q
  apply enters.andThen (enters.getPipe q)
  intro pipe
  split
  · exact enters.log _
  · apply enters.andThen begins
    intro _
    apply enters.andThen (signals _ .started)
    intro _
    apply enters.andThen operates
    intro _
    apply enters.andThen releases
    intro made_room
    split
    · exact enters.emit reacts fun event announces => signals event (.announces announces)
    · exact enters.gives _

theorem Enters.feed (enters : Enters K)
    (fills : ∀ source, K _ (modifyPipe q fun pipe => { pipe with source }))
    (receives : ∀ bytes, K _ (record (.received q bytes))) (runs : K _ (Pipe.run o q))
    {source : Source (Machine τ ω)} (reads : ∀ wanted, K _ (source.read wanted))
    (ends : K _ source.isEnded) : K _ (Pipe.storeFrom o q source) := by
  refine enters.called ?_ q
  apply enters.andThen (enters.failureCheck q)
  intro failed
  cases failed with
  | error e => exact enters.gives _
  | ok =>
      apply enters.andThen (enters.getPipe q)
      intro pipe
      apply enters.andThen (Ring.closed_storeFrom enters.toClosed reads ends pipe.source)
      intro intake
      apply enters.andThen (fills _)
      intro _
      apply enters.andThen (receives _)
      intro _
      exact enters.onIntake runs intake.result

theorem Enters.switch (enters : Enters K) {candidate : RingId}
    (registers : ∀ r, K _ (attach r (.listener q))) (leaves : ∀ r, K _ (detach r (.listener q)))
    (moves : K _ (modifyPipe q fun pipe => { pipe with destination := candidate }))
    (redirects : ∀ destination held, K _ (record (.redirected q destination held)))
    (runs : K _ (Pipe.run o q)) : K _ (Pipe.switchTo o q candidate) := by
  refine enters.called ?_ q
  apply enters.andThen (enters.getPipe q)
  intro pipe
  apply enters.andThen (enters.getRing candidate)
  intro ring
  apply enters.andThen (enters.getRing pipe.destination)
  intro current
  split
  · exact enters.gives _
  · apply enters.andThen (leaves _)
    intro _
    apply enters.andThen moves
    intro _
    apply enters.andThen (redirects _ _)
    intro _
    apply enters.andThen (registers _)
    intro _
    apply enters.andThen (enters.log _)
    intro _
    exact enters.andThen runs fun _ => enters.gives _

omit [Transform τ] in
theorem Enters.giveBack (enters : Enters K) (cleans : ∀ r, K _ (SharedRing.clean r))
    (empties : K _ (modifyPipe q fun pipe =>
      { pipe with queue := pipe.queue.clear, scratch := .empty, source := pipe.source.clean })) :
    K _ (Pipe.clean q) := by
  apply enters.andThen empties
  intro _
  apply enters.andThen (enters.getPipe q)
  intro pipe
  apply enters.andThen (cleans _)
  intro _
  exact enters.andThen (enters.getPipe q) fun _ => enters.log _

end Shape

/-- An invariant that does not care whether the pipe operates, and whether an edge is due, survives
whole runs. -/
theorem Weathers.run {o : Owner τ ω} {p : PipeId} {inv : World τ ω → Prop}
    (h : Weathers o p inv inv)
    (enters : Enters fun _ (m : Machine τ ω _) => Preserves inv m)
    (flags : ∀ w operating pendingWritable, inv w →
      inv { w with pipes := w.pipes.set p { w.pipes.get p with operating, pendingWritable } })
    (fails : ∀ e, Preserves inv (Pipe.fail o p e))
    (signals : ∀ event, event.Signals p → Preserves inv (record event))
    (reacts : ∀ handler edge, Preserves inv (o.react handler edge)) :
    Preserves inv (Pipe.run o p) := by
  have begins : Preserves inv (modifyPipe p fun pipe => { pipe with operating := true }) :=
    upholds_modifyPipe fun w => flags w _ _
  have releases : Preserves inv (Pipe.release p) :=
    .pointwise fun w holds => .at_getPipe (.at_modifyPipe (.here (flags w _ _ holds)
      ((signals _ (.ended _ _)).bind fun _ => preserves_pure _)))
  have operates : Preserves inv (Pipe.operate o p) := h.operate fails
  exact enters.run begins (operates.onHalt releases) releases signals reacts

@[inherit_doc Weathers.run]
theorem Weathers.keeps_run {o : Owner τ ω} {p : PipeId} {inv : World τ ω → Prop}
    (h : Weathers o p (fun _ => True) inv)
    (enters : Enters fun _ (m : Machine τ ω _) => Keeps inv m)
    (flags : ∀ w operating pendingWritable, inv w →
      inv { w with pipes := w.pipes.set p { w.pipes.get p with operating, pendingWritable } })
    (fails : ∀ e, Keeps inv (Pipe.fail o p e))
    (signals : ∀ event, event.Signals p → Keeps inv (record event))
    (reacts : ∀ handler edge, Keeps inv (o.react handler edge)) : Keeps inv (Pipe.run o p) := by
  have begins : Keeps inv (modifyPipe p fun pipe => { pipe with operating := true }) :=
    ensures_modifyPipe fun w => flags w _ _
  have releases : Keeps inv (Pipe.release p) :=
    .pointwise fun w holds => .at_getPipe (.at_modifyPipe (.here (flags w _ _ holds)
      ((signals _ (.ended _ _)).bind fun _ => keeps_pure _)))
  have operates : Keeps inv (Pipe.operate o p) :=
    ensures_iff_upholds.2 (h.operate fun e => ensures_iff_upholds.1 (fails e))
  exact enters.run begins operates.onHalt releases signals reacts

/-! ## Invariants about rings that are valid

Whatever streams and handlers do, calls put valid rings in the place of valid ones. -/

/-- The invariant says that all rings are valid, and lets valid content take the place of any. -/
structure TendsRings (inv : World τ ω → Prop) : Prop extends Stable inv where
  valid : ∀ {w}, inv w → ∀ r, (w.rings.get r).ring.Valid
  replace : ∀ {w}, inv w → ∀ r {ring : Ring}, ring.Valid →
    inv { w with rings := w.rings.set r { w.rings.get r with ring } }
  delivered : ∀ r bytes, Preserves inv (record (.delivered r bytes))

namespace TendsRings

variable {o : Owner τ ω} {inv : World τ ω → Prop} (tends : TendsRings inv)

include tends

omit [Transform τ] in
theorem setRing (r : RingId) {ring : Ring} (valid : ring.Valid) : Preserves inv (setRing r ring) :=
  upholds_modify fun _ holds => tends.replace holds r valid

omit [Transform τ] in
theorem clearRing (r : RingId) : Preserves inv (SharedRing.clear r) :=
  .pointwise fun _ holds =>
    .at_getRing (.here holds (tends.setRing r (tends.valid holds r).clear))

omit [Transform τ] in
theorem cleanRing (r : RingId) : Preserves inv (SharedRing.clean r) :=
  .pointwise fun _ holds =>
    .at_getRing (.here holds (tends.setRing r (tends.valid holds r).clean))

omit [Transform τ] in
theorem defragment (r : RingId) : Preserves inv (SharedRing.defragment r) := by
  refine .pointwise fun w holds => .at_getRing ?_
  unfold Machine.defragment
  cases moved : (w.rings.get r).ring.defragment with
  | error e => exact .here holds (preserves_pure _)
  | ok ring =>
      have logs : Preserves inv (recordAll (Event.ofDefragment (w.rings.get r).ring)) := by
        unfold Event.ofDefragment
        split
        · exact tends.log _
        · exact upholds_modify fun _ => id
      have valid := (tends.valid holds r).defragment moved
      exact .here holds (logs.bind fun _ => (tends.setRing r valid).bind fun _ => preserves_pure _)

omit [Transform τ] in
theorem clear (p : PipeId) : Preserves inv (Pipe.clear p) :=
  (tends.enters.getPipe p).bind fun _ => tends.clearRing _

variable (reacts : ∀ handler edge, Preserves inv (o.react handler edge))

include reacts

omit [Transform τ] in
theorem store (r : RingId) (data : Bytes) : Preserves inv (SharedRing.store o r data) := by
  have stores : Preserves inv (updateRing r fun ring =>
      (((ring.store data).2, ring.isEmpty && !(ring.store data).1.isEmpty),
        (ring.store data).1)) :=
    upholds_updateRing fun _ holds => tends.replace holds r ((tends.valid holds r).store data)
  refine stores.bind fun ⟨answer, turned⟩ => ?_
  cases answer with
  | error e => exact preserves_pure _
  | ok count => exact tends.enters.perhaps (tends.enters.fireReadable reacts r) _ _

omit [Transform τ] in
theorem fill (r : RingId) {source : Source (Machine τ ω)}
    (reads : ∀ wanted, Preserves inv (source.read wanted))
    (ends : Preserves inv source.isEnded) : Preserves inv (SharedRing.storeFrom o r source) := by
  refine .pointwise fun w holds => .at_getRing ?_
  refine Upholds.bind (.here holds (upholds_storeFrom reads ends _)) fun intake => ?_
  refine .pointwise fun w' ⟨holds', fills⟩ => ?_
  have filled := (fills (tends.valid holds r)).valid
  refine Upholds.bind (.here holds' (tends.setRing r filled)) fun _ => ?_
  cases intake.result with
  | error e => exact preserves_pure _
  | ok stored => exact tends.enters.perhaps (tends.enters.fireReadable reacts r) _ _

variable (runs : ∀ q, Preserves inv (Pipe.run o q))

include runs

theorem pour (r : RingId) {sink : Sink (Machine τ ω)}
    (writes : ∀ offered, Preserves inv (sink.write offered)) (max : Nat) :
    Preserves inv (SharedRing.writeTo o r sink max) := by
  refine .pointwise fun w holds => .at_getRing ?_
  refine Upholds.bind (.here holds (upholds_writeTo writes _ max)) fun outflow => ?_
  refine .pointwise fun w' ⟨holds', drains⟩ => ?_
  have drained := (drains (tends.valid holds r)).valid
  refine Upholds.bind (.here holds' (tends.setRing r drained)) fun _ => ?_
  apply (tends.delivered r _).bind
  intro _
  cases outflow.result with
  | error e => exact preserves_pure _
  | ok written => exact tends.enters.perhaps (tends.enters.fireWritable reacts runs r) _ _

theorem empty (p : PipeId) {sink : Sink (Machine τ ω)}
    (writes : ∀ offered, Preserves inv (sink.write offered)) (max : Nat) :
    Preserves inv (Pipe.writeTo o p sink max) :=
  tends.enters.called
    ((tends.enters.getPipe p).bind fun _ => tends.pour reacts runs _ writes max) p

end TendsRings

end ByteFlow.Machine
