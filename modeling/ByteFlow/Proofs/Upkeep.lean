/-
# The buffers of a pipe stay in order

Whatever programs do with a pipe and however they end, its source remains a valid ring, and the
segments that wait in its queue remain rings in one piece. Nothing more than this is needed to know
that a segment is written to a destination in one go.
-/

import ByteFlow.Proofs.Advance
import ByteFlow.Proofs.Withstanding

namespace ByteFlow

open Machine

variable {τ ω α : Type}

/-- The source is a valid ring, and the segments that wait are in one piece. -/
structure Pipe.InOrder (pipe : Pipe τ) : Prop where
  source : pipe.source.Valid
  queue : pipe.queue.Sound

theorem Pipe.InOrder.advance [Transform τ] [Transform.Proper τ] {pipe : Pipe τ} (h : pipe.InOrder)
    (p : PipeId) : (pipe.advance p).pipe.InOrder := by
  obtain ⟨source, pending, valid, same⟩ := advance_eq p h.source
  have uses : (Output.new pipe.queue pipe.scratch pipe.options.ceiling).Uses pipe.called.output :=
    Transform.Proper.uses _ _ _
  rw [same]
  exact ⟨valid, uses.sound h.queue⟩

variable [Inhabited τ]

/-- All pipes are in order. -/
def InOrder (w : World τ ω) : Prop := ∀ p, (w.pipes.get p).InOrder

namespace InOrder

variable {w : World τ ω} {o : Owner τ ω}

theorem set_pipe (h : InOrder w) {p : PipeId} {pipe : Pipe τ} (order : pipe.InOrder) :
    InOrder { w with pipes := w.pipes.set p pipe } := by
  intro q
  dsimp only
  rw [Table.get_set]
  split
  · exact order
  · exact h q

/-- Most changes to a pipe leave its buffers alone. -/
theorem modifyPipe {p : PipeId} {f : Pipe τ → Pipe τ}
    (same : ∀ pipe, (f pipe).source = pipe.source ∧ (f pipe).queue = pipe.queue) :
    Preserves (InOrder (ω := ω)) (modifyPipe p f) := by
  refine upholds_modifyPipe fun w h => h.set_pipe ?_
  obtain ⟨source, queue⟩ := same (w.pipes.get p)
  refine ⟨?_, ?_⟩
  · rw [source]
    exact (h p).source
  · rw [queue]
    exact (h p).queue

theorem aloof : Aloof (InOrder (τ := τ) (ω := ω)) where
  journal _ _ := id
  rings _ _ := id
  calls _ _ := modifyPipe fun _ => ⟨rfl, rfl⟩

/-- A new pipe is in order. -/
theorem opened (h : InOrder w) (direction : Direction) (d : RingId) (transform : τ)
    (options : PipeOptions) (capacity : Nat) (journal : List Event) :
    InOrder { w.opened direction d transform options capacity with journal } :=
  h.set_pipe ⟨Ring.valid_empty _ _, Queue.sound_empty⟩

section Reacting

variable [Transform τ] [Transform.Proper τ]
  (reacts : ∀ handler edge, Preserves InOrder (o.react handler edge))

include reacts

theorem withstands (p : PipeId) : Withstands o p (.pieces InOrder) InOrder where
  halts _ := id
  log _ := aloof.record _
  take w segment rest h popped := by
    obtain ⟨held, piece, sound⟩ := (h p).queue.popFront popped
    exact ⟨h.set_pipe ⟨(h p).source, sound⟩, held, piece⟩
  put w segment h _ := fun ⟨valid, piece⟩ =>
    h.set_pipe ⟨(h p).source, (h p).queue.pushFront valid piece⟩
  mark w h := h.set_pipe ⟨(h p).source, (h p).queue⟩
  advance w h _ := h.set_pipe ((h p).advance p)
  store := aloof.admits.store reacts

theorem run (p : PipeId) : Preserves InOrder (Pipe.run o p) := by
  refine (withstands reacts p).weathers.run aloof.admits.handles.toEnters ?_ (fun e => ?_)
    (fun _ _ => aloof.record _) reacts
  · exact fun w _ _ h => h.set_pipe ⟨(h p).source, (h p).queue⟩
  · exact aloof.admits.fail (fun _ => modifyPipe fun _ => ⟨rfl, rfl⟩)
      (fun _ _ _ => aloof.record _) reacts e

theorem feed (p : PipeId) {source : Source (Machine τ ω)}
    (reads : ∀ wanted, Preserves InOrder (source.read wanted))
    (ends : Preserves InOrder source.isEnded) : Preserves InOrder (Pipe.storeFrom o p source) := by
  refine aloof.during ?_ p
  apply (aloof.admits.failureCheck p).bind
  intro failed
  cases failed with
  | error e => exact preserves_pure _
  | ok =>
      refine .pointwise fun w h => .at_getPipe ?_
      have valid := (h p).source
      refine Upholds.bind (.here h (upholds_storeFrom reads ends _)) fun intake => ?_
      refine .pointwise fun w ⟨h, fills⟩ => .at_modifyPipe ?_
      have stored : InOrder
          { w with pipes := w.pipes.set p { w.pipes.get p with source := intake.ring } } :=
        h.set_pipe ⟨(fills valid).valid, (h p).queue⟩
      apply Upholds.here stored
      apply (aloof.record _).bind
      intro _
      exact aloof.admits.onIntake (run reacts p) intake.result

omit [Transform τ] [Transform.Proper τ] reacts in
theorem clean (p : PipeId) : Preserves (InOrder (τ := τ) (ω := ω)) (Pipe.clean p) := by
  refine aloof.admits.handles.giveBack aloof.admits.clean (upholds_modifyPipe fun w h => ?_)
  exact h.set_pipe ⟨(h p).source.clean, Queue.sound_empty⟩

/-- Every call leaves the pipes in order, on whichever pipe or ring. -/
theorem perform {c : Call τ ω α}
    (reads : ∀ source, c.source? = some source → ∀ wanted, Preserves InOrder (source.read wanted))
    (ended : ∀ source, c.source? = some source → Preserves InOrder source.isEnded)
    (writes : ∀ sink, c.sink? = some sink → ∀ offered, Preserves InOrder (sink.write offered)) :
    Preserves InOrder (c.perform o) := by
  have aloof := aloof (τ := τ) (ω := ω)
  have handles := aloof.admits.handles
  cases c with
  | feed p source => exact feed reacts p (reads source rfl) (ended source rfl)
  | run p => exact run reacts p
  | empty p sink max => exact handles.empty reacts (run reacts) p (writes sink rfl) max
  | switch p candidate =>
      exact handles.switch (fun r => aloof.modifyShared r _) (fun r => aloof.modifyShared r _)
        (modifyPipe fun _ => ⟨rfl, rfl⟩) (fun _ _ => aloof.record _) (run reacts p)
  | clear p => exact handles.clear p
  | clean p => exact clean p
  | store r data => exact handles.store reacts r data
  | fill r source => exact handles.fill reacts r (reads source rfl) (ended source rfl)
  | pour r sink max => exact handles.pour reacts (run reacts) r (writes sink rfl) max

end Reacting

end InOrder

end ByteFlow
