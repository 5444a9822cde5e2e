/-
# The ledger of a pipe

The journal tells everything that crossed the border of a pipe. Its ledger adds that up: the bytes
that came into the source, those that the transform has consumed, those that it pushed, and those
that sinks took from the rings that were the destination, one after the other. The ledger reads the
journal only, so laws about it speak of what can be watched from outside and of nothing else.

A ring may hold bytes before it becomes the destination. They are not the pipe's, and the ledger
keeps their number.
-/

import ByteFlow.Journal

namespace ByteFlow

/-- The bytes of its input that a step has used. A step that claims more than there was is refused,
and uses nothing. -/
def Step.used (step : Step) (input : Block) : Bytes :=
  if step.consumed ≤ input.size then input.toList.take step.consumed else []

theorem Step.used_errored (cause : Cause) (input : Block) : (errored cause).used input = [] :=
  if_pos (Nat.zero_le _)

/-- The traffic of a pipe. -/
structure Ledger where
  /-- The rings that were the destination, the latest first, and how many bytes each held when it
  became that. -/
  destinations : List (RingId × Nat)
  /-- The bytes that came into the source. -/
  received : Bytes
  /-- The bytes that the transform has used. -/
  consumed : Bytes
  /-- The bytes that the transform has pushed. -/
  pushed : Bytes
  /-- The bytes that sinks took from a ring while it was the destination. -/
  accepted : Bytes
deriving DecidableEq, Repr

namespace Ledger

/-- The ledger of a pipe that was not made yet. -/
def empty : Ledger := ⟨[], [], [], [], []⟩

/-- The ring that is the destination now. -/
def current? (ledger : Ledger) : Option RingId := ledger.destinations.head?.map Prod.fst

/-- Whether every ring was empty when it became the destination. -/
def IsFresh (ledger : Ledger) : Prop := ∀ entry ∈ ledger.destinations, entry.2 = 0

instance (ledger : Ledger) : Decidable ledger.IsFresh :=
  inferInstanceAs (Decidable (∀ entry ∈ ledger.destinations, entry.2 = 0))

/-- What an event adds to the ledger of a pipe. -/
def enter (p : PipeId) (ledger : Ledger) : Event → Ledger
  | .opened q destination held =>
    if q = p then { empty with destinations := [(destination, held)] } else ledger
  | .redirected q destination held =>
    if q = p then { ledger with destinations := (destination, held) :: ledger.destinations }
    else ledger
  | .received q bytes =>
    if q = p then { ledger with received := ledger.received ++ bytes } else ledger
  | .delivered ring bytes =>
    if ledger.current? = some ring then { ledger with accepted := ledger.accepted ++ bytes }
    else ledger
  | .transformed q input _ step chunks _ =>
    if q = p then
      { ledger with
        consumed := ledger.consumed ++ step.used input
        pushed := ledger.pushed ++ chunks.flatten }
    else ledger
  | .stopped q _ _ chunks =>
    if q = p then { ledger with pushed := ledger.pushed ++ chunks.flatten } else ledger
  | _ => ledger

/-- The ledger of a pipe, read off a journal. -/
def of (p : PipeId) (journal : List Event) : Ledger :=
  journal.foldr (fun event ledger => ledger.enter p event) empty

variable {p : PipeId} {journal : List Event}

theorem of_opened (r : RingId) (held : Nat) :
    of p (.opened p r held :: journal) = { empty with destinations := [(r, held)] } :=
  if_pos rfl

theorem of_redirected (r : RingId) (held : Nat) :
    of p (.redirected p r held :: journal) =
      { of p journal with destinations := (r, held) :: (of p journal).destinations } :=
  if_pos rfl

theorem of_received (bytes : Bytes) :
    of p (.received p bytes :: journal) =
      { of p journal with received := (of p journal).received ++ bytes } :=
  if_pos rfl

theorem of_delivered {r : RingId} (current : (of p journal).current? = some r) (bytes : Bytes) :
    of p (.delivered r bytes :: journal) =
      { of p journal with accepted := (of p journal).accepted ++ bytes } :=
  if_pos current

theorem of_delivered_elsewhere {r : RingId} (other : (of p journal).current? ≠ some r)
    (bytes : Bytes) : of p (.delivered r bytes :: journal) = of p journal :=
  if_neg other

theorem of_transformed (input : Block) (headroom : Nat) (step : Step) (chunks : List Bytes)
    (left : Nat) :
    of p (.transformed p input headroom step chunks left :: journal) =
      { of p journal with
        consumed := (of p journal).consumed ++ step.used input
        pushed := (of p journal).pushed ++ chunks.flatten } :=
  if_pos rfl

theorem of_stopped (input : Block) (headroom : Nat) (chunks : List Bytes) :
    of p (.stopped p input headroom chunks :: journal) =
      { of p journal with pushed := (of p journal).pushed ++ chunks.flatten } :=
  if_pos rfl

theorem of_opened_elsewhere {q : PipeId} (other : q ≠ p) (r : RingId) (held : Nat) :
    of p (.opened q r held :: journal) = of p journal :=
  if_neg other

theorem of_received_elsewhere {q : PipeId} (other : q ≠ p) (bytes : Bytes) :
    of p (.received q bytes :: journal) = of p journal :=
  if_neg other

theorem of_transformed_elsewhere {q : PipeId} (other : q ≠ p) (input : Block) (headroom : Nat)
    (step : Step) (chunks : List Bytes) (left : Nat) :
    of p (.transformed q input headroom step chunks left :: journal) = of p journal :=
  if_neg other

end Ledger

/-- A call of the transform of the pipe. -/
def Event.IsCallOf (p : PipeId) : Event → Prop
  | .transformed q .. | .stopped q .. => q = p
  | _ => False

/-- A call of the transform of another pipe is not in the ledger. -/
theorem Ledger.of_call_elsewhere {p q : PipeId} (other : q ≠ p) {event : Event}
    (call : event.IsCallOf q) {journal : List Event} :
    of p (event :: journal) = of p journal := by
  cases event with
  | transformed q' input headroom step chunks left =>
      obtain rfl : q' = q := call
      exact if_neg other
  | stopped q' input headroom chunks =>
      obtain rfl : q' = q := call
      exact if_neg other
  | _ => exact call.elim

/-- An event that is in no ledger: it says something about the run, not about bytes. -/
def Event.IsNote : Event → Prop
  | .opened .. | .redirected .. | .received .. | .delivered .. | .transformed ..
  | .stopped .. => False
  | _ => True

/-- An event that concerns no pipe at all: an entry of the log, or what a transform says about its
use of its output. -/
def Event.IsReport : Event → Prop
  | .logged _ | .output _ _ => True
  | _ => False

theorem Event.IsReport.isNote {event : Event} (report : event.IsReport) : event.IsNote := by
  cases event <;> trivial

theorem Ledger.of_note {p : PipeId} {journal : List Event} {event : Event} (note : event.IsNote) :
    of p (event :: journal) = of p journal := by
  cases event <;> first | rfl | exact note.elim

theorem Ledger.of_notes {p : PipeId} {journal events : List Event}
    (notes : ∀ event ∈ events, event.IsNote) : of p (events ++ journal) = of p journal := by
  induction events with
  | nil => rfl
  | cons event events ih =>
      obtain ⟨note, others⟩ := List.forall_mem_cons.1 notes
      exact (of_note note).trans (ih others)

end ByteFlow
