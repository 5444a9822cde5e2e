/-
# Watching one pipe

Much of what is to be known of a pipe while programs act is about the pipe itself and about what is
on record, and looks at nothing else. `Shows p view w` says such a thing of pipe `p`.

Most calls cannot touch what is shown: whatever happens to rings and to other pipes leaves it alone,
as long as the view does not mind more on record, a call more or less in progress, and where the
pipe drains to. What is left to prove of a view is what the runs of the pipe itself do to it, and
what the bytes do that come in. What runs put on record is not taken for granted either: that they
begin and end, the edge that makes the pipe writable, and who is told of it.
-/

import ByteFlow.Proofs.Advance
import ByteFlow.Proofs.Entering
import ByteFlow.Proofs.Withstanding

namespace ByteFlow

open Machine

variable {τ ω α : Type}

namespace Event

/-- The event belongs to a turn of the pipe to be writable: a run begins or ends, the edge fires, or
a handler is told of it. All turns come after the pipe is made. -/
def turns (p : PipeId) : Event → Bool
  | .opened q _ _ | .started q | .ended q _ _ | .fired (.pipe q) .writable
  | .notified (.pipe q) _ .writable => q == p
  | _ => false

theorem Announces.turns {p : PipeId} {emitter : Emitter} {edge : Edge}
    (passes : emitter.Passes edge) {event : Event} (announces : event.Announces emitter edge) :
    event.turns p = false := by
  cases emitter with
  | ring r => cases announces <;> rfl
  | members => cases announces <;> rfl
  | pipe q =>
      cases edge with
      | writable => exact passes.elim
      | readable => cases announces <;> rfl
      | error e => exact passes.elim

theorem Announces.turns_of_error {p q : PipeId} {e : Error} {event : Event}
    (announces : event.Announces (.pipe q) (.error e)) : event.turns p = false := by
  cases announces <;> rfl

theorem Signals.turns {p q : PipeId} (other : q ≠ p) {event : Event} (signals : event.Signals q) :
    event.turns p = false := by
  rcases signals with _ | _ | announces
  · exact beq_false_of_ne other
  · exact beq_false_of_ne other
  · cases announces <;> exact beq_false_of_ne other

theorem IsReport.turns {p : PipeId} {event : Event} (report : event.IsReport) :
    event.turns p = false := by
  cases event <;> first | rfl | exact report.elim

end Event

/-- An advance does not make the pipe writable by itself. -/
theorem Pipe.turns_of_advance [Transform τ] [Transform.Candid τ] {p q : PipeId} {pipe : Pipe τ}
    {event : Event} (member : event ∈ (pipe.advance q).events) : event.turns p = false := by
  rcases report_or_call_of_mem_advance member with report | call
  · exact report.turns
  · cases event <;> first | rfl | exact call.elim

/-- The call gives back the memory of the pipe. -/
def Call.cleans (p : PipeId) : Call τ ω α → Prop
  | .clean q => q = p
  | _ => False

/-- What a view of a pipe and of the record does not mind. -/
structure Pipe.View (p : PipeId) (view : Pipe τ → List Event → Prop) : Prop where
  calls : ∀ pipe journal calls, view pipe journal → view { pipe with calls } journal
  destination : ∀ pipe journal destination,
    view pipe journal → view { pipe with destination } journal
  event : ∀ pipe journal event, event.turns p = false → view pipe journal →
    view pipe (event :: journal)

variable [Inhabited τ]

/-- The pipe is in use, and it and the record are as the view says. -/
def Shows (p : PipeId) (view : Pipe τ → List Event → Prop) (w : World τ ω) : Prop :=
  p < w.pipes.next ∧ view (w.pipes.get p) w.journal

namespace Shows

variable {p : PipeId} {view : Pipe τ → List Event → Prop} {w : World τ ω} {o : Owner τ ω}

/-- Another pipe may be anything, and the pipe itself anything that the view allows. -/
theorem set_pipe (h : Shows p view w) {q : PipeId} {pipe : Pipe τ}
    (own : q = p → view pipe w.journal) :
    Shows p view { w with pipes := w.pipes.set q pipe } := by
  by_cases same : q = p
  · subst same
    exact Table.set_self (P := (view · w.journal)) (own rfl)
  · exact Table.set_other (P := (view · w.journal)) h same pipe

/-- A run of the pipe begins. -/
theorem begun (h : view { w.pipes.get p with operating := true } (.started p :: w.journal)) :
    Shows p view (w.begun p) :=
  Table.set_self (P := (view · (.started p :: w.journal))) h

/-- A run of the pipe ends. -/
theorem released (h : view { w.pipes.get p with operating := false, pendingWritable := false }
      (.ended p (w.pipes.get p).pendingWritable (w.pipes.get p).handlers :: w.journal)) :
    Shows p view (w.released p) :=
  Table.set_self (P := (view · (_ :: w.journal))) h

theorem keeps_modifyPipe {q : PipeId} {f : Pipe τ → Pipe τ}
    (own : ∀ pipe journal, view pipe journal → view (f pipe) journal) :
    Keeps (Shows (ω := ω) p view) (modifyPipe q f) := by
  refine ensures_modifyPipe fun w h => h.set_pipe ?_
  rintro rfl
  exact own _ _ h.2

theorem keeps_modifyShared (r : RingId) (f : SharedRing → SharedRing) :
    Keeps (Shows (τ := τ) (ω := ω) p view) (modifyShared r f) :=
  ensures_modifyShared fun _ => id

variable (viewed : Pipe.View p view)

include viewed

theorem set_journal (h : Shows p view w) {events : List Event}
    (quiet : ∀ event ∈ events, event.turns p = false) :
    Shows p view { w with journal := events ++ w.journal } := by
  refine ⟨h.1, ?_⟩
  induction events with
  | nil => exact h.2
  | cons event events ih =>
      obtain ⟨first, others⟩ := List.forall_mem_cons.1 quiet
      exact viewed.event _ _ event first (ih others)

theorem keeps_record {event : Event} (quiet : event.turns p = false) :
    Keeps (Shows (τ := τ) (ω := ω) p view) (record event) :=
  ensures_record fun _ h => ⟨h.1, viewed.event _ _ event quiet h.2⟩

theorem keeps_during {body : Machine τ ω α} (h : Keeps (Shows p view) body) (q : PipeId) :
    Keeps (Shows p view) (Pipe.during q body) := by
  have counts (f : Nat → Nat) : Keeps (Shows (τ := τ) (ω := ω) p view)
      (modifyPipe q fun pipe => { pipe with calls := f pipe.calls }) :=
    keeps_modifyPipe fun pipe journal => viewed.calls pipe journal _
  refine Ensures.bind (counts (· + 1)) fun _ => Ensures.ensuring h fun _ => ?_
  exact (counts (· - 1)).bind fun _ => (closed_keeps _).retire fun r => keeps_modifyShared r _

/-- What happens to rings, and to who is told of them, is not seen. -/
theorem handles : Handles fun _ (m : Machine τ ω _) => Keeps (Shows p view) m where
  toClosed := closed_keeps _
  log _ := keeps_record viewed rfl
  announce passes _ announces := keeps_record viewed (announces.turns passes)
  listen q _ h := by
    apply (keeps_getPipe q).bind
    intro pipe
    split
    · exact keeps_during viewed h q
    · exact keeps_pure _
  called := keeps_during viewed
  set r _ := keeps_modifyShared r _
  updated _ _ := ensures_updateRing fun _ => id
  delivered _ _ := keeps_record viewed rfl

section Reacting

variable [Transform τ] [Transform.Candid τ]
  (reacts : ∀ handler edge, Keeps (Shows p view) (o.react handler edge))

include reacts

/-- What does not look at a pipe at all survives the runs of that pipe. -/
theorem keeps_run {q : PipeId}
    (blind : ∀ (w : World τ ω) pipe, Shows p view w →
      Shows p view { w with pipes := w.pipes.set q pipe })
    (signs : ∀ event, event.Signals q → Keeps (Shows (τ := τ) (ω := ω) p view) (record event)) :
    Keeps (Shows p view) (Pipe.run o q) := by
  have handles := handles (ω := ω) viewed
  have withstands : Withstands o q (.any fun _ => True) (Shows p view) :=
    { halts := fun _ _ => trivial
      log := fun _ => ensures_iff_upholds.1 (handles.log _)
      take := fun w _ _ h _ => ⟨blind w _ h, trivial⟩
      put := fun w _ h _ _ => blind w _ h
      mark := fun w h => blind w _ h
      advance := fun w h _ =>
        (blind w _ h).set_journal viewed fun _ member => Pipe.turns_of_advance member
      store := fun r data => ensures_iff_upholds.1 (handles.store reacts r data) }
  refine withstands.weathers.keeps_run handles.toEnters (fun w _ _ => blind w _) ?_ signs reacts
  exact handles.fail (fun _ => ensures_modifyPipe fun w => blind w _)
    (fun _ _ announces => keeps_record viewed announces.turns_of_error) reacts

omit [Transform.Candid τ] reacts in
/-- A store into the pipe keeps what the bytes that come in and the run that follows keep. -/
theorem keeps_feed (runs : Keeps (Shows p view) (Pipe.run o p)) {source : Source (Machine τ ω)}
    (fills : ∀ w : World τ ω, Shows p view w →
      Ensures (· = w) ((w.pipes.get p).source.storeFrom source) fun intake w' =>
        Shows p view { w' with
          pipes := w'.pipes.set p { w'.pipes.get p with source := intake.ring } }) :
    Keeps (Shows p view) (Pipe.storeFrom o p source) := by
  refine keeps_during viewed ?_ p
  apply Keeps.bind ((closed_keeps _).failureCheck p)
  intro failed
  cases failed with
  | error e => exact keeps_pure _
  | ok =>
      refine .pointwise fun w h => .at_getPipe (Ensures.bind (fills w h) fun intake => ?_)
      refine .pointwise fun w h => .at_modifyPipe (.here h ?_)
      apply Keeps.bind (keeps_record viewed rfl)
      intro _
      exact (handles viewed).onIntake runs intake.result

omit [Transform.Candid τ] reacts in
/-- What does not look at the source does not mind what comes in. -/
theorem keeps_feed_of_blind
    (blind : ∀ pipe journal source, view pipe journal → view { pipe with source } journal)
    (runs : Keeps (Shows p view) (Pipe.run o p)) {source : Source (Machine τ ω)}
    (reads : ∀ wanted, Keeps (Shows p view) (source.read wanted))
    (ends : Keeps (Shows p view) source.isEnded) :
    Keeps (Shows p view) (Pipe.storeFrom o p source) :=
  (handles viewed).feed (fun _ => keeps_modifyPipe fun pipe journal => blind pipe journal _)
    (fun _ => keeps_record viewed rfl) runs reads ends

/-- What the runs of the pipe keep, and the bytes that come into it, every call keeps, on whichever
pipe or ring, as long as the pipe is not cleaned. -/
theorem keeps_perform {c : Call τ ω α} (spares : ¬ c.cleans p)
    (runs : Keeps (Shows p view) (Pipe.run o p))
    (feeds : ∀ source, c.source? = some source → Keeps (Shows p view) (Pipe.storeFrom o p source))
    (reads : ∀ source, c.source? = some source →
      ∀ wanted, Keeps (Shows p view) (source.read wanted))
    (ended : ∀ source, c.source? = some source → Keeps (Shows p view) source.isEnded)
    (writes : ∀ sink, c.sink? = some sink →
      ∀ offered, Keeps (Shows p view) (sink.write offered)) :
    Keeps (Shows p view) (c.perform o) := by
  have handles := handles (ω := ω) viewed
  have away {q : PipeId} (other : q ≠ p) (f : Pipe τ → Pipe τ) :
      Keeps (Shows (ω := ω) p view) (modifyPipe q f) :=
    ensures_modifyPipe fun w h => h.set_pipe fun same => (other same).elim
  -- Runs of other pipes come with calls on any ring: their listeners start them.
  have runs (q : PipeId) : Keeps (Shows p view) (Pipe.run o q) := by
    by_cases own : q = p
    · rw [own]
      exact runs
    · refine keeps_run viewed reacts (fun w _ h => h.set_pipe fun same => (own same).elim) ?_
      exact fun event signals => keeps_record viewed (signals.turns own)
  cases c with
  | feed q source =>
      by_cases own : q = p
      · rw [own]
        exact feeds source rfl
      · exact handles.feed (fun _ => away own _) (fun _ => keeps_record viewed rfl) (runs q)
          (reads source rfl) (ended source rfl)
  | run q => exact runs q
  | empty q sink max => exact handles.empty reacts runs q (writes sink rfl) max
  | switch q candidate =>
      have moves : Keeps (Shows (ω := ω) p view)
          (modifyPipe q fun pipe : Pipe τ => { pipe with destination := candidate }) :=
        keeps_modifyPipe fun pipe journal => viewed.destination pipe journal _
      exact handles.switch (fun r => keeps_modifyShared r _) (fun r => keeps_modifyShared r _) moves
        (fun _ _ => keeps_record viewed rfl) (runs q)
  | clear q => exact handles.clear q
  | clean q => exact handles.giveBack handles.clean (away (fun own => spares own) _)
  | store r data => exact handles.store reacts r data
  | fill r source => exact handles.fill reacts r (reads source rfl) (ended source rfl)
  | pour r sink max => exact handles.pour reacts runs r (writes sink rfl) max

end Reacting

end Shows

end ByteFlow
