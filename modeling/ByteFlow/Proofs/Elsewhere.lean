/-
# What the runs of other pipes keep

A run does a great deal to its own pipe. To the rest of the world it does no more than store into a
destination, tell handlers of it, move a listener and put events on record. So an invariant that
does not look at the pipe survives the run as soon as it survives these, and nothing has to be known
of the pipe: not even that its source or its queue is in order.

What a run keeps, given what its parts keep, comes first. It serves invariants that do look at the
pipe just as well.
-/

import ByteFlow.Pipe.Calls
import ByteFlow.Proofs.Edges
import ByteFlow.Proofs.Ledger
import ByteFlow.Proofs.Transfers

namespace ByteFlow

/-- What calls of a pipe put on record, beside what its transform does. -/
def Event.IsOf (q : PipeId) : Event → Prop
  | .received p _ | .redirected p _ _ | .fired (.pipe p) _ | .notified (.pipe p) _ _
  | .started p | .ended p _ _ => p = q
  | _ => False

theorem Event.Announces.isNote {emitter : Emitter} {edge : Edge} {event : Event}
    (announces : event.Announces emitter edge) : event.IsNote := by
  cases announces <;> trivial

theorem Event.Announces.isOf {q : PipeId} {edge : Edge} {event : Event}
    (announces : event.Announces (.pipe q) edge) : event.IsOf q := by
  cases announces <;> rfl

/-- What a run puts on record of itself: that it began and ended, and the edge that it tells of. -/
inductive Event.Signals (q : PipeId) : Event → Prop where
  | started : Signals q (.started q)
  | ended (freed : Bool) (handlers : List HandlerId) : Signals q (.ended q freed handlers)
  | announces {event : Event} (announces : event.Announces (.pipe q) .writable) : Signals q event

theorem Event.Signals.isNote {q : PipeId} {event : Event} (signals : event.Signals q) :
    event.IsNote := by
  rcases signals with _ | _ | announces
  · trivial
  · trivial
  · exact announces.isNote

namespace Machine

variable {τ ω : Type} [Inhabited τ]

/-! ## The shape of a run

What a run does, given what its parts do. -/

section Shape

variable {K : ∀ α : Type, Machine τ ω α → Prop} {o : Owner τ ω} {p : PipeId}

theorem Closed.isSettled (closed : Closed K) (p : PipeId) : K _ (Pipe.isSettled p) := by
  apply closed.andThen (closed.getPipe p)
  intro pipe
  exact closed.andThen (closed.getRing _) fun ring => closed.gives _

theorem Closed.failureCheck (closed : Closed K) (p : PipeId) : K _ (Pipe.failureCheck p) := by
  apply closed.andThen (closed.getPipe p)
  intro pipe
  cases pipe.failure <;> exact closed.gives _

theorem Hosts.drain (hosts : Hosts K) (drains : ∀ d, K _ (Pipe.drainInto o p d o.passes 0)) :
    K _ (Pipe.drain o p) := by
  apply hosts.andThen (hosts.getPipe p)
  intro pipe
  apply hosts.andThen (drains _)
  intro drained
  rcases drained with e | cleaned | count
  · exact hosts.gives _
  · exact hosts.gives _
  · dsimp only
    split
    · exact hosts.andThen (hosts.log _) fun _ => hosts.gives _
    · exact hosts.gives _

theorem Hosts.fail (hosts : Hosts K)
    (marks : ∀ kind, K _ (modifyPipe p fun pipe => { pipe with failure := some kind }))
    (announces : ∀ e event, event.Announces (.pipe p) (.error e) → K _ (record event))
    (reacts : ∀ handler edge, K _ (o.react handler edge)) (e : Error) :
    K _ (Pipe.fail o p e) := by
  apply hosts.andThen (hosts.getPipe p)
  intro pipe
  split
  · apply hosts.andThen (hosts.log _)
    intro _
    exact hosts.andThen (marks _) fun _ => hosts.emit reacts (announces e)
  · exact hosts.log _

variable [Transform τ]

theorem Closed.settle (closed : Closed K) (halts : ∀ halt, K (Except Error Unit) (throw halt))
    (drains : K _ (Pipe.drain o p)) (transforms : K _ (Pipe.transformOnce p)) (passes : Nat) :
    K _ (Pipe.settle o p passes) := by
  induction passes with
  | zero => exact halts _
  | succ passes ih =>
      apply closed.andThen (closed.isSettled p)
      intro settled
      split
      · exact closed.gives _
      · apply closed.andThen drains
        intro drained
        cases drained with
        | error e => exact closed.gives _
        | ok drained =>
            apply closed.andThen transforms
            intro transformed
            cases transformed with
            | error e => exact closed.gives _
            | ok transformed =>
                dsimp only
                split
                · exact ih
                · exact closed.gives _

theorem Closed.operate (closed : Closed K) (settles : K _ (Pipe.settle o p o.passes))
    (fails : ∀ e, K _ (Pipe.fail o p e)) : K _ (Pipe.operate o p) := by
  apply closed.andThen (closed.getPipe p)
  intro pipe
  split
  · apply closed.andThen settles
    intro settled
    cases settled with
    | error e => exact fails e
    | ok => exact closed.gives _
  · exact closed.gives _

/-- Once bytes have come into a pipe, the pipe is run, and asked whether it has failed by now. -/
theorem Hosts.onIntake (hosts : Hosts K) (runs : K _ (Pipe.run o p))
    (result : Except Error Stored) :
    K _ (match result with
      | .error e => return .error e
      | .ok stored => do
        if stored.isEos then Machine.log (.sourceEnded (← getPipe p).direction)
        Pipe.run o p
        match ← Pipe.failureCheck p with
        | .error e => return .error e
        | .ok () => return .ok stored : Machine τ ω (Except Error Stored)) := by
  cases result with
  | error e => exact hosts.gives _
  | ok stored =>
      have onward : K _ (do
          Pipe.run o p
          match ← Pipe.failureCheck p with
          | .error e => return .error e
          | .ok () => return .ok stored : Machine τ ω (Except Error Stored)) := by
        apply hosts.andThen runs
        intro _
        apply hosts.andThen (hosts.failureCheck p)
        intro failed
        cases failed <;> exact hosts.gives _
      dsimp only
      split
      · apply hosts.andThen (hosts.getPipe p)
        intro pipe
        exact hosts.andThen (hosts.log _) fun _ => onward
      · exact onward

/-- To tell an observer that a ring has room does what the handlers do, and the runs that the
listeners start. -/
theorem Hosts.tellWritable (hosts : Hosts K) (reacts : ∀ handler edge, K _ (o.react handler edge))
    {r : RingId} {observer : Observer}
    (runs : ∀ q, observer = .listener q → K _ (Pipe.run o q)) :
    K _ (match observer with
      | .listener q => Pipe.listenWritable o q
      | .handler handler => Machine.tell o (.ring r) .writable handler) := by
  cases observer with
  | listener q =>
      apply hosts.andThen (hosts.getPipe q)
      intro pipe
      split
      · exact runs q rfl
      · exact hosts.gives _
  | handler handler =>
      have passes : (Emitter.ring r).Passes .writable := trivial
      exact hosts.tell reacts (hosts.announce passes (.notified handler))

/-- The edge that makes a ring writable does what the handlers do, and the runs of pipes. -/
theorem Hosts.fireWritable (hosts : Hosts K)
    (reacts : ∀ handler edge, K _ (o.react handler edge)) (runs : ∀ q, K _ (Pipe.run o q))
    (r : RingId) : K _ (SharedRing.fireWritable o r) := by
  have passes : (Emitter.ring r).Passes .writable := trivial
  apply hosts.andThen (hosts.announce passes .fired)
  intro _
  apply hosts.andThen (hosts.getShared r)
  intro shared
  exact hosts.forM fun _ _ => hosts.tellWritable reacts fun q _ => runs q

end Shape

/-! ## Rings

A property that nothing that is done to the content of a ring stands against. Then all calls of
rings have it, if the handlers and the runs of pipes have it. -/

/-- A call of a pipe has the property if its body does. -/
structure Enters (K : ∀ α : Type, Machine τ ω α → Prop) : Prop extends Hosts K where
  called : ∀ {α : Type} {body : Machine τ ω α}, K _ body → ∀ p, K _ (Pipe.during p body)

/-- All handling of the content of rings has the property. -/
structure Handles (K : ∀ α : Type, Machine τ ω α → Prop) : Prop extends Enters K where
  set : ∀ r ring, K _ (setRing r ring)
  updated : ∀ {α : Type} r (f : Ring → α × Ring), K _ (updateRing r f)
  delivered : ∀ r bytes, K _ (record (.delivered r bytes))

/-- All handling of rings has the property, and a call of a pipe has it if its body does. -/
structure Admits (K : ∀ α : Type, Machine τ ω α → Prop) : Prop extends Hosts K where
  shared : ∀ r f, K _ (modifyShared r f)
  updated : ∀ {α : Type} r (f : Ring → α × Ring), K _ (updateRing r f)
  delivered : ∀ r bytes, K _ (record (.delivered r bytes))
  called : ∀ {α : Type} {body : Machine τ ω α}, K _ body → ∀ p, K _ (Pipe.during p body)

namespace Handles

variable {K : ∀ α : Type, Machine τ ω α → Prop} {o : Owner τ ω} (handles : Handles K)

include handles

theorem clear (p : PipeId) : K _ (Pipe.clear p) := by
  apply handles.andThen (handles.getPipe p)
  intro pipe
  exact handles.andThen (handles.getRing _) fun _ => handles.set _ _

theorem clean (r : RingId) : K _ (SharedRing.clean r) :=
  handles.andThen (handles.getRing r) fun _ => handles.set _ _

variable (reacts : ∀ handler edge, K _ (o.react handler edge))

include reacts

theorem store (r : RingId) (data : Bytes) : K _ (SharedRing.store o r data) := by
  apply handles.andThen (handles.updated r _)
  intro ⟨answer, turned⟩
  cases answer with
  | error e => exact handles.gives _
  | ok count => exact handles.perhaps (handles.fireReadable reacts r) _ _

theorem fill (r : RingId) {source : Source (Machine τ ω)}
    (reads : ∀ wanted, K _ (source.read wanted)) (ends : K _ source.isEnded) :
    K _ (SharedRing.storeFrom o r source) := by
  apply handles.andThen (handles.getRing r)
  intro before
  apply handles.andThen (Ring.closed_storeFrom handles.toClosed reads ends before)
  intro intake
  apply handles.andThen (handles.set r _)
  intro _
  cases intake.result with
  | error e => exact handles.gives _
  | ok stored => exact handles.perhaps (handles.fireReadable reacts r) _ _

variable [Transform τ]

theorem pour (runs : ∀ q, K _ (Pipe.run o q)) (r : RingId) {sink : Sink (Machine τ ω)}
    (writes : ∀ offered, K _ (sink.write offered)) (max : Nat) :
    K _ (SharedRing.writeTo o r sink max) := by
  apply handles.andThen (handles.getRing r)
  intro before
  apply handles.andThen (Ring.closed_writeTo handles.toClosed writes before max)
  intro outflow
  apply handles.andThen (handles.set r _)
  intro _
  apply handles.andThen (handles.delivered r _)
  intro _
  cases outflow.result with
  | error e => exact handles.gives _
  | ok written => exact handles.perhaps (handles.fireWritable reacts runs r) _ _

theorem empty (runs : ∀ q, K _ (Pipe.run o q)) (p : PipeId) {sink : Sink (Machine τ ω)}
    (writes : ∀ offered, K _ (sink.write offered)) (max : Nat) :
    K _ (Pipe.writeTo o p sink max) :=
  handles.called (handles.andThen (handles.getPipe p) fun _ =>
    handles.pour reacts runs _ writes max) p

end Handles

namespace Admits

variable {K : ∀ α : Type, Machine τ ω α → Prop} {o : Owner τ ω} (admits : Admits K)

include admits

theorem handles : Handles K :=
  { admits with set := fun r _ => admits.shared r _ }

theorem clear (p : PipeId) : K _ (Pipe.clear p) := admits.handles.clear p

theorem clean (r : RingId) : K _ (SharedRing.clean r) := admits.handles.clean r

variable (reacts : ∀ handler edge, K _ (o.react handler edge))

include reacts

theorem store (r : RingId) (data : Bytes) : K _ (SharedRing.store o r data) :=
  admits.handles.store reacts r data

theorem fill (r : RingId) {source : Source (Machine τ ω)}
    (reads : ∀ wanted, K _ (source.read wanted)) (ends : K _ source.isEnded) :
    K _ (SharedRing.storeFrom o r source) :=
  admits.handles.fill reacts r reads ends

variable [Transform τ]

theorem pour (runs : ∀ q, K _ (Pipe.run o q)) (r : RingId) {sink : Sink (Machine τ ω)}
    (writes : ∀ offered, K _ (sink.write offered)) (max : Nat) :
    K _ (SharedRing.writeTo o r sink max) :=
  admits.handles.pour reacts runs r writes max

theorem empty (runs : ∀ q, K _ (Pipe.run o q)) (p : PipeId) {sink : Sink (Machine τ ω)}
    (writes : ∀ offered, K _ (sink.write offered)) (max : Nat) :
    K _ (Pipe.writeTo o p sink max) :=
  admits.handles.empty reacts runs p writes max

end Admits

/-! ## Invariants that look away -/

/-- The invariant does not look at pipe `q`, and it survives what a run of the pipe does to the rest
of the world, and what it puts on record. -/
structure Blind [Transform τ] (o : Owner τ ω) (q : PipeId) (inv : World τ ω → Prop) : Prop extends
    Steady inv where
  own : ∀ event, event.IsOf q → Keeps inv (record event)
  advanced : ∀ pipe : Pipe τ, Keeps inv (recordAll (pipe.advance q).events)
  pipe : ∀ (w : World τ ω) pipe, inv w → inv { w with pipes := w.pipes.set q pipe }
  attach : ∀ r, Keeps inv (attach r (.listener q))
  detach : ∀ r, Keeps inv (detach r (.listener q))
  store : ∀ r data, Keeps inv (SharedRing.store o r data)
  reacts : ∀ handler edge, Keeps inv (o.react handler edge)

namespace Blind

variable [Transform τ] {o : Owner τ ω} {q : PipeId} {inv : World τ ω → Prop}

theorem keeps_modifyPipe (blind : Blind o q inv) (f : Pipe τ → Pipe τ) :
    Keeps inv (modifyPipe q f) :=
  ensures_modifyPipe fun w => blind.pipe w _

theorem keeps_emit (blind : Blind o q inv) (edge : Edge) : Keeps inv (Pipe.emit o q edge) :=
  blind.hosts.emit blind.reacts fun _ announces => blind.own _ announces.isOf

/-! ## Runs -/

theorem keeps_drainInto (blind : Blind o q inv) (d : RingId) (passes count : Nat) :
    Keeps inv (Pipe.drainInto o q d passes count) := by
  induction passes generalizing count with
  | zero => exact ensures_throw _
  | succ passes ih =>
      apply Keeps.bind (keeps_getPipe q)
      intro pipe
      apply Keeps.bind (keeps_getRing d)
      intro ring
      dsimp only
      split
      · exact keeps_pure _
      · split
        · exact keeps_pure _
        · apply Keeps.bind (blind.keeps_modifyPipe _)
          intro _
          apply Keeps.bind (Ring.keeps_writeTo (blind.store d) _ _)
          intro outflow
          apply Keeps.bind (keeps_getPipe q)
          intro pipe
          split
          · exact Keeps.bind (blind.log _) fun _ => keeps_pure _
          · apply Keeps.bind (blind.keeps_modifyPipe _)
            intro _
            cases outflow.result with
            | error e => exact keeps_pure _
            | ok written =>
                have onward : Keeps inv (if written = 0 then pure (.ok (.moved count))
                    else Pipe.drainInto o q d passes (count + written)) := by
                  split
                  · exact keeps_pure _
                  · exact ih _
                dsimp only
                split
                · exact Keeps.bind (blind.keeps_modifyPipe _) fun _ => onward
                · exact onward

theorem keeps_release (blind : Blind o q inv) : Keeps inv (Pipe.release q) := by
  apply Keeps.bind (keeps_getPipe q)
  intro pipe
  apply Keeps.bind (blind.keeps_modifyPipe _)
  intro _
  exact Keeps.bind (blind.own _ rfl) fun _ => keeps_pure _

theorem keeps_transformOnce (blind : Blind o q inv) : Keeps inv (Pipe.transformOnce q) := by
  apply Keeps.bind (keeps_getPipe q)
  intro pipe
  split
  · apply Keeps.bind (blind.keeps_modifyPipe _)
    intro _
    exact Keeps.bind (blind.advanced _) fun _ => ensures_insist fun _ _ _ => id
  · exact keeps_pure _

theorem keeps_operate (blind : Blind o q inv) : Keeps inv (Pipe.operate o q) := by
  have drains := blind.hosts.drain fun d => blind.keeps_drainInto d o.passes 0
  apply blind.hosts.operate
  · exact blind.hosts.settle (fun _ => ensures_throw _) drains blind.keeps_transformOnce _
  · exact blind.hosts.fail (fun _ => blind.keeps_modifyPipe _)
      (fun _ _ announces => blind.own _ announces.isOf) blind.reacts

theorem keeps_run (blind : Blind o q inv) : Keeps inv (Pipe.run o q) := by
  refine blind.toSteady.keeps_during ?_ q
  apply Keeps.bind (keeps_getPipe q)
  intro pipe
  split
  · exact blind.log _
  · apply Keeps.bind (blind.keeps_modifyPipe _)
    intro _
    apply Keeps.bind (blind.own (.started q) rfl)
    intro _
    refine Ensures.bind blind.keeps_operate.onHalt fun _ => ?_
    apply Keeps.bind blind.keeps_release
    intro made_room
    split
    · exact blind.keeps_emit _
    · exact keeps_pure _

/-! ## Calls -/

theorem keeps_storeFrom (blind : Blind o q inv) {source : Source (Machine τ ω)}
    (reads : ∀ wanted, Keeps inv (source.read wanted)) (ends : Keeps inv source.isEnded) :
    Keeps inv (Pipe.storeFrom o q source) := by
  refine blind.toSteady.keeps_during ?_ q
  apply Keeps.bind (blind.hosts.failureCheck q)
  intro failed
  cases failed with
  | error e => exact keeps_pure _
  | ok =>
      apply Keeps.bind (keeps_getPipe q)
      intro pipe
      apply Keeps.bind (Ring.keeps_storeFrom reads ends _)
      intro intake
      apply Keeps.bind (blind.keeps_modifyPipe _)
      intro _
      apply Keeps.bind (blind.own (.received q intake.moved) rfl)
      intro _
      exact blind.hosts.onIntake blind.keeps_run intake.result

theorem keeps_switchTo (blind : Blind o q inv) (candidate : RingId) :
    Keeps inv (Pipe.switchTo o q candidate) := by
  refine blind.toSteady.keeps_during ?_ q
  apply Keeps.bind (keeps_getPipe q)
  intro pipe
  apply Keeps.bind (keeps_getRing candidate)
  intro ring
  apply Keeps.bind (keeps_getRing pipe.destination)
  intro current
  split
  · exact keeps_pure _
  · apply Keeps.bind (blind.detach _)
    intro _
    apply Keeps.bind (blind.keeps_modifyPipe _)
    intro _
    apply Keeps.bind (blind.own (.redirected q candidate ring.used) rfl)
    intro _
    apply Keeps.bind (blind.attach _)
    intro _
    apply Keeps.bind (blind.log _)
    intro _
    exact Keeps.bind blind.keeps_run fun _ => keeps_pure _

end Blind

end Machine

end ByteFlow
