/-
# Pipes that have failed

A pipe that has told of a terminal error has failed for good. What is in its source and its queue
stays there, and its transform is not called again: what is left of the pipe is a `Wreck`.

`Orderly` is what holds of every pipe between the steps of its runs. The history of the pipe agrees
with the failure that it shows: if the pipe has failed, the error fired once, some handlers were
told of it, each of them once, and nothing else has happened since; otherwise nobody was told of
any. `Observed` adds what an observer has made of the wrecks that it saw, and what is known at the
moment at which a handler is told of an edge.
-/

import ByteFlow.Proofs.Elsewhere
import ByteFlow.Proofs.History

namespace ByteFlow

open Machine

variable {τ ω : Type}

/-- What is left of a pipe that has failed. -/
structure Wreck (τ : Type) where
  kind : ErrorKind
  source : Ring
  queue : Queue
  transform : τ

/-- What is left of a wreck once the memory of the pipe was given back. -/
def Wreck.cleaned (wreck : Wreck τ) : Wreck τ :=
  { wreck with source := wreck.source.clean, queue := wreck.queue.clear }

/-- A history that tells of no terminal error. -/
def Unfailed (p : PipeId) (history : List Event) : Prop :=
  ∀ event ∈ history, event.fails p = false

/-- The end of the history of a pipe that has failed: the error fires, and then these handlers are
told of it, the last one first. -/
def obituary (p : PipeId) (e : Error) (told : List HandlerId) (earlier : List Event) : List Event :=
  told.map (Event.notified (.pipe p) · (.error e)) ++ .fired (.pipe p) (.error e) :: earlier

/-- A history tells of a terminal error once, each handler at most once, and then ends; or it tells
of none, as the pipe shows it. -/
def Reported (p : PipeId) (history : List Event) : Option ErrorKind → Prop
  | none => Unfailed p history
  | some kind => (kind = .underflow ∨ kind = .transform) ∧ ∃ e told earlier, e.kind = kind ∧
      history = obituary p e told earlier ∧ told.Nodup ∧ Unfailed p earlier

namespace Pipe

/-- The wreck that a pipe is, if it has failed. -/
def wreck? (pipe : Pipe τ) : Option (Wreck τ) :=
  pipe.failure.map fun kind => ⟨kind, pipe.source, pipe.queue, pipe.transform⟩

/-- What holds of a pipe with that history between the steps of its runs. -/
structure Orderly (p : PipeId) (pipe : Pipe τ) (history : List Event) : Prop where
  reported : Reported p history pipe.failure
  handlers : pipe.handlers.Nodup
  source : pipe.source.Valid
  queue : pipe.queue.Sound

end Pipe

/-- What is known of a pipe when a handler is told of an edge. -/
inductive Moment (τ : Type) (cleans : Prop) where
  /-- Nothing in particular. -/
  | any
  /-- A run is in progress and the pipe has not failed. While the pipe is not cleaned, `books` holds
  of the bytes that wait and of those that the transform has pushed. -/
  | busy (books : Bytes → Bytes → Prop)
  /-- The pipe has failed, and this is its history. -/
  | failed (kind : ErrorKind) (history : List Event)
  /-- The pipe has failed, and nobody cleans it. -/
  | wrecked (wreck : Wreck τ) (uncleaned : ¬ cleans)

/-- What is known of a pipe at a moment. -/
def Moment.Holds {cleans : Prop} (pipe : Pipe τ) (history : List Event) : Moment τ cleans → Prop
  | any => True
  | busy books => pipe.operating = true ∧ pipe.failure = none ∧
      (pipe.source.cleaned = false → books pipe.queue.toList (pushedIn history))
  | failed kind known => pipe.failure = some kind ∧ history = known
  | wrecked wreck _ => pipe.wreck? = some wreck

/-- What holds of a pipe at a moment, and of the owner who may have looked at it before. -/
structure Pipe.Observed {cleans : Prop} (p : PipeId) (seen : Option (Wreck τ) → ω → Prop)
    (moment : Moment τ cleans) (pipe : Pipe τ) (history : List Event) (owner : ω) : Prop where
  orderly : pipe.Orderly p history
  seen : seen pipe.wreck? owner
  moment : moment.Holds pipe history

/-- Pipes are the same to observers if they differ in no more than this. -/
theorem Pipe.Observed.of_same {cleans : Prop} {p : PipeId} {seen : Option (Wreck τ) → ω → Prop}
    {moment : Moment τ cleans} {pipe after : Pipe τ} {history : List Event} {owner : ω}
    (h : pipe.Observed p seen moment history owner)
    (same : ∃ destination pendingWritable held calls,
      after = { pipe with destination, pendingWritable, held, calls }) :
    after.Observed p seen moment history owner := by
  obtain ⟨_, _, _, _, rfl⟩ := same
  refine ⟨⟨h.orderly.reported, h.orderly.handlers, h.orderly.source, h.orderly.queue⟩, h.seen, ?_⟩
  have known := h.moment
  cases moment <;> exact known

variable [Inhabited τ]

namespace World

/-- The wreck that pipe `p` is, if it has failed. -/
def wreck? (p : PipeId) (w : World τ ω) : Option (Wreck τ) := (w.pipes.get p).wreck?

/-- Pipe `p` is in use and orderly. -/
def Orderly (p : PipeId) (w : World τ ω) : Prop :=
  p < w.pipes.next ∧ (w.pipes.get p).Orderly p (history p w.journal)

end World

/-- Pipe `p` is in use, and this holds of it. -/
def Observed {cleans : Prop} (p : PipeId) (seen : Option (Wreck τ) → ω → Prop)
    (moment : Moment τ cleans) (w : World τ ω) : Prop :=
  p < w.pipes.next ∧ (w.pipes.get p).Observed p seen moment (history p w.journal) w.owner

namespace Observed

variable {cleans : Prop} {p : PipeId} {seen : Option (Wreck τ) → ω → Prop}
  {moment : Moment τ cleans} {w : World τ ω}

theorem orderly (h : Observed p seen moment w) : w.Orderly p := ⟨h.1, h.2.orderly⟩

/-- A change to the pipe itself. -/
theorem set_pipe {pipe : Pipe τ} (own : pipe.Observed p seen moment (history p w.journal) w.owner) :
    Observed p seen moment { w with pipes := w.pipes.set p pipe } :=
  Table.set_self
    (P := fun pipe : Pipe τ => pipe.Observed p seen moment (history p w.journal) w.owner) own

/-- A change to another pipe. -/
theorem set_other_pipe (h : Observed p seen moment w) {q : PipeId} (other : q ≠ p)
    (pipe : Pipe τ) : Observed p seen moment { w with pipes := w.pipes.set q pipe } :=
  Table.set_other
    (P := fun pipe : Pipe τ => pipe.Observed p seen moment (history p w.journal) w.owner) h other
    pipe

/-- A change to the journal in which the history of the pipe stays. -/
theorem set_journal (h : Observed p seen moment w) {journal : List Event}
    (same : history p journal = history p w.journal) :
    Observed p seen moment { w with journal } :=
  ⟨h.1, by simpa only [same] using h.2⟩

/-! ## Bookkeeping -/

theorem keeps_record {event : Event} (elsewhere : event.IsElsewhere p) :
    Keeps (Observed (τ := τ) (ω := ω) p seen moment) (record event) :=
  ensures_record fun _ h => h.set_journal (history_of_elsewhere elsewhere)

/-- Nothing that is done to a ring matters. -/
theorem keeps_modifyShared (r : RingId) (f : SharedRing → SharedRing) :
    Keeps (Observed (τ := τ) (ω := ω) p seen moment) (modifyShared r f) :=
  ensures_modifyShared fun _ => id

/-- Another pipe may be changed in any way, this one in what observers do not see. -/
theorem keeps_modifyPipe (q : PipeId) {f : Pipe τ → Pipe τ}
    (same : ∀ pipe, ∃ destination pendingWritable held calls,
      f pipe = { pipe with destination, pendingWritable, held, calls }) :
    Keeps (Observed (ω := ω) p seen moment) (modifyPipe q f) := by
  apply ensures_modifyPipe
  intro w h
  by_cases own : q = p
  · rw [own]
    exact set_pipe (h.2.of_same (same _))
  · exact h.set_other_pipe own _

theorem steady : Steady (Observed (τ := τ) (ω := ω) p seen moment) where
  log _ := keeps_record ⟨rfl, rfl⟩
  announce ordinary _ announces := keeps_record (announces.isElsewhere ordinary p)
  count q _ := keeps_modifyPipe q fun _ => ⟨_, _, _, _, rfl⟩
  retire _ := (closed_keeps _).retire fun r => keeps_modifyShared r _

theorem admits :
    Admits fun _ (m : Machine τ ω _) => Keeps (Observed p seen moment) m where
  toHosts := steady.hosts
  shared := keeps_modifyShared
  updated _ _ := ensures_updateRing fun _ => id
  delivered _ _ := keeps_record ⟨rfl, rfl⟩
  called h q := steady.keeps_during h q

/-- What happens to other pipes cannot be observed, but for the handlers that are told of it. -/
theorem blind [Transform τ] [Transform.Candid τ] {o : Owner τ ω}
    (reacts : ∀ handler edge, Keeps (Observed p seen moment) (o.react handler edge)) {q : PipeId}
    (other : q ≠ p) : Blind o q (Observed p seen moment) where
  toSteady := steady
  own _ own := keeps_record (own.isElsewhere other)
  advanced pipe := ensures_recordAll fun _ h => h.set_journal (history_advance_elsewhere other pipe)
  pipe _ pipe h := h.set_other_pipe other pipe
  attach _ := keeps_modifyShared _ _
  detach _ := keeps_modifyShared _ _
  store r data := admits.store reacts r data
  reacts := reacts

end Observed

end ByteFlow
