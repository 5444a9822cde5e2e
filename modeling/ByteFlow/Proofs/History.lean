/-
# The history of a pipe

The journal has everything that happened, to all pipes. The history of one pipe is the part of it
that says what became of the pipe itself: bytes that came in, calls of its transform, and terminal
errors that it told of. It begins when the pipe is made.

A history is shorter than the journal and says more than the ledger, which adds up bytes and does
not see a call that moved none.
-/

import ByteFlow.Proofs.Advance
import ByteFlow.Proofs.Elsewhere

namespace ByteFlow

namespace Event

/-- Whether an event makes the pipe. -/
def opens (p : PipeId) : Event → Bool
  | .opened q _ _ => q == p
  | _ => false

/-- Whether an event says that the pipe failed: it tells of an error, or tells a handler of one. -/
def fails (p : PipeId) : Event → Bool
  | .fired (.pipe q) (.error _) | .notified (.pipe q) _ (.error _) => q == p
  | _ => false

/-- Whether an event belongs to the history of the pipe. -/
def regards (p : PipeId) : Event → Bool
  | .received q _ | .transformed q _ _ _ _ _ | .stopped q _ _ _ => q == p
  | event => event.fails p

/-- Whether an event is a call of a transform. -/
def isCall : Event → Bool
  | .transformed .. | .stopped .. => true
  | _ => false

/-- The chunks that a transform pushed. -/
def chunks : Event → List Bytes
  | .transformed _ _ _ _ chunks _ | .stopped _ _ _ chunks => chunks
  | _ => []

/-- The bytes that a transform pushed. -/
def pushes (event : Event) : Bytes := event.chunks.flatten

/-- An event that does not matter to the history of the pipe. -/
def IsElsewhere (p : PipeId) (event : Event) : Prop :=
  event.opens p = false ∧ event.regards p = false

theorem IsReport.isElsewhere {event : Event} (report : event.IsReport) (p : PipeId) :
    event.IsElsewhere p := by
  cases event <;> first | exact ⟨rfl, rfl⟩ | exact report.elim

theorem IsNote.opens {event : Event} (note : event.IsNote) (p : PipeId) :
    event.opens p = false := by
  cases event <;> first | rfl | exact note.elim

theorem IsNote.isCall {event : Event} (note : event.IsNote) : event.isCall = false := by
  cases event <;> first | rfl | exact note.elim

theorem IsCallOf.isCall {q : PipeId} {event : Event} (call : event.IsCallOf q) : event.isCall := by
  cases event <;> first | rfl | exact call.elim

theorem IsCallOf.regards {q : PipeId} {event : Event} (call : event.IsCallOf q) :
    event.regards q := by
  cases event <;> first | exact beq_iff_eq.2 call | exact call.elim

theorem IsCallOf.opens {q : PipeId} {event : Event} (call : event.IsCallOf q) (p : PipeId) :
    event.opens p = false := by
  cases event <;> first | rfl | exact call.elim

theorem IsCallOf.fails {q : PipeId} {event : Event} (call : event.IsCallOf q) (p : PipeId) :
    event.fails p = false := by
  cases event <;> first | rfl | exact call.elim

theorem Announces.isElsewhere {emitter : Emitter} {edge : Edge} (ordinary : edge.IsOrdinary)
    {event : Event} (announces : event.Announces emitter edge) (p : PipeId) :
    event.IsElsewhere p := by
  refine ⟨announces.isNote.opens p, ?_⟩
  cases edge with
  | error e => exact ordinary.elim
  | readable => cases announces <;> cases emitter <;> rfl
  | writable => cases announces <;> cases emitter <;> rfl

theorem IsCallOf.isElsewhere {p q : PipeId} (other : q ≠ p) {event : Event}
    (call : event.IsCallOf q) : event.IsElsewhere p := by
  refine ⟨call.opens p, ?_⟩
  cases event with
  | transformed q' =>
      obtain rfl : q' = q := call
      exact beq_eq_false_iff_ne.2 other
  | stopped q' =>
      obtain rfl : q' = q := call
      exact beq_eq_false_iff_ne.2 other
  | _ => exact call.elim

theorem IsOf.isElsewhere {p q : PipeId} (other : q ≠ p) {event : Event} (own : event.IsOf q) :
    event.IsElsewhere p := by
  cases event with
  | received q' bytes =>
      obtain rfl : q' = q := own
      exact ⟨rfl, beq_eq_false_iff_ne.2 other⟩
  | redirected q' destination held => exact ⟨rfl, rfl⟩
  | started q' => exact ⟨rfl, rfl⟩
  | ended q' freed handlers => exact ⟨rfl, rfl⟩
  | fired emitter edge =>
      cases emitter with
      | pipe q' =>
          obtain rfl : q' = q := own
          cases edge with
          | error e => exact ⟨rfl, beq_eq_false_iff_ne.2 other⟩
          | _ => exact ⟨rfl, rfl⟩
      | _ => exact own.elim
  | notified emitter handler edge =>
      cases emitter with
      | pipe q' =>
          obtain rfl : q' = q := own
          cases edge with
          | error e => exact ⟨rfl, beq_eq_false_iff_ne.2 other⟩
          | _ => exact ⟨rfl, rfl⟩
      | _ => exact own.elim
  | _ => exact own.elim

end Event

/-- What happened to a pipe since it was made, newest first. -/
def history (p : PipeId) (journal : List Event) : List Event :=
  (journal.takeWhile fun event => !event.opens p).filter (·.regards p)

/-- The bytes that the transform pushed, over a history. -/
def pushedIn (events : List Event) : Bytes := events.reverse.flatMap Event.pushes

theorem pushedIn_cons (event : Event) (events : List Event) :
    pushedIn (event :: events) = pushedIn events ++ event.pushes := by
  rw [pushedIn, List.reverse_cons, List.flatMap_append, List.flatMap_singleton, pushedIn]

variable {p : PipeId} {journal : List Event}

theorem history_of_opened (r : RingId) (held : Nat) :
    history p (.opened p r held :: journal) = [] := by
  have opens : (Event.opened p r held).opens p = true := beq_self_eq_true p
  rw [history, List.takeWhile_cons, opens]
  rfl

theorem history_of_elsewhere {event : Event} (elsewhere : event.IsElsewhere p) :
    history p (event :: journal) = history p journal := by
  rw [history, List.takeWhile_cons, elsewhere.1, Bool.not_false, if_pos rfl, List.filter_cons,
    elsewhere.2]
  rfl

theorem history_of_all_elsewhere {events : List Event}
    (elsewhere : ∀ event ∈ events, event.IsElsewhere p) :
    history p (events ++ journal) = history p journal := by
  induction events with
  | nil => rfl
  | cons event events ih =>
      obtain ⟨first, others⟩ := List.forall_mem_cons.1 elsewhere
      exact (history_of_elsewhere first).trans (ih others)

theorem history_of_regards {event : Event} (regards : event.regards p) :
    history p (event :: journal) = event :: history p journal := by
  have same : event.opens p = false := by
    cases event <;> first | rfl | cases regards
  rw [history, List.takeWhile_cons, same, Bool.not_false, if_pos rfl, List.filter_cons, regards,
    if_pos rfl]
  rfl

/-- An event that is not of a kind is not among the events of that kind, also if it is in the
history of the pipe. -/
theorem filter_history_of_still {kind : Event → Bool} {event : Event}
    (still : kind event = false) (opens : event.opens p = false) :
    (history p (event :: journal)).filter kind = (history p journal).filter kind := by
  by_cases regards : event.regards p
  · rw [history_of_regards regards, List.filter_cons_of_neg (Bool.eq_false_iff.1 still)]
  · rw [history_of_elsewhere ⟨opens, Bool.eq_false_iff.2 regards⟩]

theorem history_of_received (bytes : Bytes) :
    history p (.received p bytes :: journal) = .received p bytes :: history p journal :=
  history_of_regards (beq_self_eq_true p)

/-- What a pipe tells of its failure is in its history. -/
theorem history_of_announces {e : Error} {event : Event}
    (announces : event.Announces (.pipe p) (.error e)) :
    history p (event :: journal) = event :: history p journal := by
  cases announces <;> exact history_of_regards (beq_self_eq_true p)

/-- The calls of the transform of a pipe since it was made, newest first. -/
def calls (p : PipeId) (journal : List Event) : List Event :=
  (history p journal).filter Event.isCall

theorem calls_of_notes {events : List Event} (notes : ∀ event ∈ events, event.IsNote) :
    calls p (events ++ journal) = calls p journal := by
  induction events with
  | nil => rfl
  | cons event events ih =>
      obtain ⟨note, others⟩ := List.forall_mem_cons.1 notes
      exact (filter_history_of_still note.isCall (note.opens p)).trans (ih others)

theorem calls_of_call {event : Event} (call : event.IsCallOf p) :
    calls p (event :: journal) = event :: calls p journal := by
  rw [calls, history_of_regards call.regards, List.filter_cons, call.isCall, if_pos rfl]
  rfl

/-- What the transform pushed is in the history as it is in the ledger. -/
theorem pushed_of_history : (Ledger.of p journal).pushed = pushedIn (history p journal) := by
  induction journal with
  | nil => rfl
  | cons event journal ih =>
      have unpushed (elsewhere : event.IsElsewhere p)
          (same : Ledger.of p (event :: journal) = Ledger.of p journal) :
          (Ledger.of p (event :: journal)).pushed = pushedIn (history p (event :: journal)) := by
        rw [same, history_of_elsewhere elsewhere, ih]
      have announced (note : event.IsNote) (pushes : event.pushes = []) :
          (Ledger.of p (event :: journal)).pushed = pushedIn (history p (event :: journal)) := by
        rw [Ledger.of_note note, ih]
        by_cases own : event.regards p
        · rw [history_of_regards own, pushedIn_cons, pushes, List.append_nil]
        · rw [history_of_elsewhere ⟨note.opens p, Bool.eq_false_iff.2 own⟩]
      cases event with
      | opened q r held =>
          by_cases own : q = p
          · rw [own, Ledger.of_opened, history_of_opened]
            rfl
          · exact unpushed ⟨beq_eq_false_iff_ne.2 own, rfl⟩ (Ledger.of_opened_elsewhere own r held)
      | redirected q r held =>
          rw [history_of_elsewhere ⟨rfl, rfl⟩, ← ih]
          change (if q = p then _ else _ : Ledger).pushed = _
          split <;> rfl
      | received q bytes =>
          by_cases own : q = p
          · rw [own, Ledger.of_received, history_of_received, pushedIn_cons, ← ih]
            exact (List.append_nil _).symm
          · exact unpushed ⟨rfl, beq_eq_false_iff_ne.2 own⟩ (Ledger.of_received_elsewhere own bytes)
      | delivered r bytes =>
          rw [history_of_elsewhere ⟨rfl, rfl⟩, ← ih]
          by_cases current : (Ledger.of p journal).current? = some r
          · rw [Ledger.of_delivered current]
          · rw [Ledger.of_delivered_elsewhere current]
      | transformed q input headroom step chunks left =>
          by_cases own : q = p
          · have regards : (Event.transformed p input headroom step chunks left).regards p :=
              beq_self_eq_true p
            rw [own, Ledger.of_transformed, history_of_regards regards, pushedIn_cons, ← ih]
            rfl
          · exact unpushed ⟨rfl, beq_eq_false_iff_ne.2 own⟩
              (Ledger.of_transformed_elsewhere own input headroom step chunks left)
      | stopped q input headroom chunks =>
          by_cases own : q = p
          · have regards : (Event.stopped p input headroom chunks).regards p :=
              beq_self_eq_true p
            rw [own, Ledger.of_stopped, history_of_regards regards, pushedIn_cons, ← ih]
            rfl
          · have call : (Event.stopped q input headroom chunks).IsCallOf q := rfl
            exact unpushed (call.isElsewhere own) (Ledger.of_call_elsewhere own call)
      | fired emitter edge => exact announced trivial rfl
      | notified emitter handler edge => exact announced trivial rfl
      | _ => exact unpushed ⟨rfl, rfl⟩ (Ledger.of_note trivial)

/-! ## An advance -/

section Advance

variable {τ : Type} [Transform τ]

/-- An advance adds one call to those of the pipe. -/
theorem exists_calls_advance [Transform.Proper τ] (p : PipeId) (pipe : Pipe τ)
    (journal : List Event) :
    ∃ call, calls p ((pipe.advance p).events ++ journal) = call :: calls p journal ∧
      pipe.Calls p call := by
  obtain ⟨reports, call, same, all, calls⟩ := pipe.events_advance p
  refine ⟨call, ?_, calls⟩
  rw [same, List.append_assoc, calls_of_notes fun event member => (all event member).isNote,
    List.cons_append, calls_of_call calls.isCallOf, calls_of_notes pipe.notes_of_called]

/-- The calls of one pipe are not those of another. -/
theorem calls_advance_elsewhere [Transform.Proper τ] {q : PipeId} (other : q ≠ p) (pipe : Pipe τ) :
    calls p ((pipe.advance q).events ++ journal) = calls p journal := by
  obtain ⟨reports, call, same, all, called⟩ := pipe.events_advance q
  have elsewhere : calls p (call :: (pipe.called.output.events ++ journal)) =
      calls p (pipe.called.output.events ++ journal) :=
    congrArg (List.filter Event.isCall) (history_of_elsewhere (called.isCallOf.isElsewhere other))
  rw [same, List.append_assoc, calls_of_notes fun event member => (all event member).isNote,
    List.cons_append, elsewhere, calls_of_notes pipe.notes_of_called]

variable [Transform.Candid τ]

/-- An advance of one pipe is not in the history of another. -/
theorem history_advance_elsewhere {q : PipeId} (other : q ≠ p) (pipe : Pipe τ) :
    history p ((pipe.advance q).events ++ journal) = history p journal := by
  apply history_of_all_elsewhere
  intro event member
  rcases Pipe.report_or_call_of_mem_advance member with report | call
  · exact report.isElsewhere p
  · exact call.isElsewhere other

/-- An advance tells of no error. -/
theorem fails_of_mem_history_advance {pipe : Pipe τ} {event : Event} (fails : event.fails p)
    (member : event ∈ history p ((pipe.advance p).events ++ journal)) :
    event ∈ history p journal := by
  have all : ∀ event ∈ (pipe.advance p).events, event.opens p = false ∧
      event.fails p = false := by
    intro event advanced
    rcases Pipe.report_or_call_of_mem_advance advanced with report | call
    · exact ⟨(report.isElsewhere p).1, by cases event <;> first | rfl | exact report.elim⟩
    · exact ⟨call.opens p, call.fails p⟩
  generalize (pipe.advance p).events = events at member all
  induction events with
  | nil => exact member
  | cons first events ih =>
      obtain ⟨⟨unopened, unfailed⟩, others⟩ := List.forall_mem_cons.1 all
      by_cases regards : first.regards p
      · rw [List.cons_append, history_of_regards regards] at member
        rcases List.mem_cons.1 member with rfl | before
        · rw [unfailed] at fails
          cases fails
        · exact ih before others
      · rw [List.cons_append,
          history_of_elsewhere ⟨unopened, Bool.eq_false_iff.2 regards⟩] at member
        exact ih member others

end Advance

end ByteFlow
