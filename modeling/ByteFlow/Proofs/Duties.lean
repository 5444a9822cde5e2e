/-
# What runs owe

The journal says when a run of a pipe began and ended, when the edge fired that makes the pipe
writable, and who was told of it. These events come in order: a run that has ended with room made
owes the edge, to the handlers that the pipe has then, and the edge owes each of them a notice, one
after the other. A handler may start further runs before the next one is told, and these have to
settle what they owe first.

So what is owed is a stack, and `duties` reads it off the journal. An event that was not owed leaves
none, whatever comes later: an edge that no run has made due, a handler that is told twice or while
a run is in progress. What is shown here is that no such event ever comes, and that whoever is told
finds a pipe that does not operate.
-/

import ByteFlow.Proofs.Manner
import ByteFlow.Proofs.Watching

namespace ByteFlow

open Machine

variable {τ ω α : Type}

/-- What is still to go on record of the runs of a pipe. -/
inductive Duty where
  /-- The run in progress is to end. -/
  | ending
  /-- The edge is to fire, and these handlers are to be told of it. -/
  | edge (handlers : List HandlerId)
  /-- The handler is to be told of the edge. -/
  | notice (handler : HandlerId)
deriving DecidableEq, Repr

/-- What is owed after an event of the turns of a pipe, given what was owed before. -/
def Duty.after : Event → Option (List Duty) → Option (List Duty)
  | .opened .., _ => some []
  | .started _, some [] => some [.ending]
  | .started _, some (.notice handler :: owed) => some (.ending :: .notice handler :: owed)
  | .ended _ freed handlers, some (.ending :: owed) =>
    some (if freed then .edge handlers :: owed else owed)
  | .fired .., some (.edge handlers :: owed) => some (handlers.map .notice ++ owed)
  | .notified _ handler _, some (.notice first :: owed) =>
    if handler = first then some owed else none
  | _, _ => none

/-- What the runs of a pipe owe at the end of the journal, what comes first in front; none if an
event was not due. -/
def duties (p : PipeId) : List Event → Option (List Duty)
  | [] => none
  | event :: earlier =>
    if event.turns p then Duty.after event (duties p earlier) else duties p earlier

/-- A run is in progress if it is to end next. The edge is never left to fire later. -/
inductive Duty.Allows : (operating : Bool) → List Duty → Prop where
  | running (owed : List Duty) : Allows true (.ending :: owed)
  | settled : Allows false []
  | telling (handler : HandlerId) (owed : List Duty) : Allows false (.notice handler :: owed)

/-- The runs of the pipe owe this, and the pipe operates or not accordingly. -/
structure Pipe.Owes (p : PipeId) (owed : List Duty) (pipe : Pipe τ) (journal : List Event) :
    Prop where
  due : duties p journal = some owed
  allows : Duty.Allows pipe.operating owed

section Journal

variable {p : PipeId} {event : Event} {journal : List Event} {owed : List Duty}

theorem duties_of_quiet (quiet : event.turns p = false) :
    duties p (event :: journal) = duties p journal :=
  if_neg (Bool.eq_false_iff.1 quiet)

theorem duties_of_turns (event : Event) (turns : event.turns p) :
    duties p (event :: journal) = Duty.after event (duties p journal) :=
  if_pos turns

theorem duties_of_opened (p : PipeId) (d : RingId) (held : Nat) (journal : List Event) :
    duties p (.opened p d held :: journal) = some [] :=
  duties_of_turns (.opened p d held) (beq_self_eq_true p)

/-- A run begins while none is in progress. -/
theorem duties_of_started (due : duties p journal = some owed) (idle : Duty.Allows false owed) :
    duties p (.started p :: journal) = some (.ending :: owed) := by
  rw [duties_of_turns (.started p) (beq_self_eq_true p), due]
  cases idle <;> rfl

theorem duties_of_ended (due : duties p journal = some (.ending :: owed)) (freed : Bool)
    (handlers : List HandlerId) : duties p (.ended p freed handlers :: journal) =
      some (if freed then .edge handlers :: owed else owed) := by
  rw [duties_of_turns (.ended p freed handlers) (beq_self_eq_true p), due]
  rfl

theorem duties_of_fired {handlers : List HandlerId}
    (due : duties p journal = some (.edge handlers :: owed)) :
    duties p (.fired (.pipe p) .writable :: journal) = some (handlers.map .notice ++ owed) := by
  rw [duties_of_turns (.fired (.pipe p) .writable) (beq_self_eq_true p), due]
  rfl

theorem duties_of_notified {handler : HandlerId}
    (due : duties p journal = some (.notice handler :: owed)) :
    duties p (.notified (.pipe p) handler .writable :: journal) = some owed := by
  rw [duties_of_turns (.notified (.pipe p) handler .writable) (beq_self_eq_true p), due]
  exact if_pos rfl

theorem Duty.Allows.notices (idle : Allows false owed) (handlers : List HandlerId) :
    Allows false (handlers.map notice ++ owed) := by
  cases handlers with
  | nil => exact idle
  | cons handler others => exact .telling _ _

end Journal

theorem viewed_owes (p : PipeId) (owed : List Duty) :
    Pipe.View p fun pipe : Pipe τ => pipe.Owes p owed where
  calls _ _ _ h := ⟨h.due, h.allows⟩
  destination _ _ _ h := ⟨h.due, h.allows⟩
  event _ _ _ quiet h := ⟨(duties_of_quiet quiet).trans h.due, h.allows⟩

variable [Inhabited τ]

/-- The runs of pipe `p` owe this. -/
def Owing (p : PipeId) (owed : List Duty) : World τ ω → Prop :=
  Shows p fun pipe => pipe.Owes p owed

namespace Owing

variable {p : PipeId} {owed : List Duty} {o : Owner τ ω} {w : World τ ω}

/-- A run that begins is to end. -/
theorem begun (h : Owing p owed w) (idle : (w.pipes.get p).operating = false) :
    Owing p (.ending :: owed) (w.begun p) :=
  Shows.begun ⟨duties_of_started h.2.due (idle ▸ h.2.allows), .running owed⟩

/-- A run that ends owes the edge, if room was made, and nothing otherwise. -/
theorem ensures_release :
    Ensures (Owing (τ := τ) (ω := ω) p (.ending :: owed)) (Pipe.release p) fun freed =>
      Shows p fun pipe journal => pipe.operating = false ∧
        duties p journal = some (if freed then .edge pipe.handlers :: owed else owed) :=
  .pointwise fun _ h =>
    Machine.ensures_release (Shows.released ⟨rfl, duties_of_ended h.2.due _ _⟩)

section Reacting

variable (reacts : ∀ owed handler edge, Keeps (Owing p owed) (o.react handler edge))

include reacts

/-- The handlers are told one after the other, and each one comes back to what is left to tell. -/
theorem ensures_tells (idle : Duty.Allows false owed) (handlers : List HandlerId) :
    Ensures (Owing p (handlers.map .notice ++ owed)) (handlers.forM (tell o (.pipe p) .writable))
      fun _ => Owing p owed := by
  induction handlers with
  | nil => exact ensures_pure fun _ => id
  | cons handler others ih =>
      have told : Ensures (Owing p ((handler :: others).map .notice ++ owed))
          (tell o (.pipe p) .writable handler) fun _ => Owing p (others.map .notice ++ owed) := by
        refine .pointwise fun w h => .at_record (.here ?_ (reacts _ handler .writable))
        have allows : Duty.Allows false (others.map .notice ++ owed) := idle.notices others
        have rests : (w.pipes.get p).operating = false := by
          have before := h.2.allows
          generalize (w.pipes.get p).operating = operating at before
          cases before
          rfl
        exact ⟨h.1, duties_of_notified h.2.due, rests ▸ allows⟩
      exact told.bind fun _ => ih

/-- An edge that is due fires, and everybody is told of it who is to be. -/
theorem ensures_emit (idle : Duty.Allows false owed) :
    Ensures (Shows p fun pipe journal => pipe.operating = false ∧
        duties p journal = some (.edge pipe.handlers :: owed))
      (Pipe.emit o p .writable) fun _ => Owing p owed := by
  refine .pointwise fun w ⟨inUse, rests, due⟩ => .at_record (.at_getPipe ?_)
  refine .here ⟨inUse, duties_of_fired due, ?_⟩ (ensures_tells reacts idle _)
  exact rests ▸ idle.notices _

variable [Transform τ] [Transform.Candid τ]

theorem keeps_operate (owed : List Duty) :
    Keeps (Owing p (.ending :: owed)) (Pipe.operate o p) := by
  have viewed := viewed_owes (τ := τ) p (.ending :: owed)
  have handles := Shows.handles (ω := ω) viewed
  have withstands : Withstands o p (.any fun _ => True) (Owing p (.ending :: owed)) :=
    { halts := fun _ _ => trivial
      log := fun _ => ensures_iff_upholds.1 (handles.log _)
      take := fun w _ _ h _ => ⟨Shows.set_pipe h fun _ => ⟨h.2.due, h.2.allows⟩, trivial⟩
      put := fun w _ h _ _ => Shows.set_pipe h fun _ => ⟨h.2.due, h.2.allows⟩
      mark := fun w h => Shows.set_pipe h fun _ => ⟨h.2.due, h.2.allows⟩
      advance := fun w h _ => by
        obtain ⟨_, _, _, _, _, same, _⟩ := (w.pipes.get p).advance_same p
        have advanced : Owing p (.ending :: owed)
            { w with pipes := w.pipes.set p ((w.pipes.get p).advance p).pipe } :=
          Shows.set_pipe h fun _ => ⟨h.2.due, by rw [same]; exact h.2.allows⟩
        exact Shows.set_journal viewed advanced fun _ member => Pipe.turns_of_advance member
      store := fun d data => ensures_iff_upholds.1 (handles.store (reacts _) d data) }
  have fails (e : Error) : Keeps (Owing p (.ending :: owed)) (Pipe.fail o p e) :=
    handles.fail (fun _ => Shows.keeps_modifyPipe fun _ _ h => ⟨h.due, h.allows⟩)
      (fun _ _ announces => Shows.keeps_record viewed announces.turns_of_error) (reacts _) e
  exact (withstands.weathers.operate fun e => ensures_iff_upholds.1 (fails e)).ensures

/-- A run settles what it owes, and leaves to others what they owe. -/
theorem keeps_run (owed : List Duty) : Keeps (Owing p owed) (Pipe.run o p) := by
  have viewed := viewed_owes (τ := τ) p owed
  refine Shows.keeps_during viewed (.pointwise fun w h => .at_getPipe ?_) p
  split
  · exact .here h (Shows.keeps_record viewed rfl)
  · rename_i resting
    have rests := Bool.eq_false_iff.2 resting
    have idle : Duty.Allows false owed := rests ▸ h.2.allows
    refine .at_modifyPipe (.at_record ?_)
    refine Ensures.bind (.here (Owing.begun h rests) (keeps_operate reacts owed).onHalt) fun _ => ?_
    refine ensures_release.bind fun freed => ?_
    cases freed with
    | true => exact ensures_emit reacts idle
    | false => exact ensures_pure fun w h => ⟨h.1, h.2.2, h.2.1 ▸ idle⟩

end Reacting

end Owing

end ByteFlow
