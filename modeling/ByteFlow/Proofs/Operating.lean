/-
# When a pipe operates

A pipe operates from the beginning of a run to its end, and a run that is started in between leaves
that to the run in progress. So whatever a program does, a pipe operates afterwards exactly if it
did before, and when it does not, no edge is due. This holds of calls from inside edges too, and of
runs that halt.
-/

import ByteFlow.Proofs.Advance
import ByteFlow.Proofs.Withstanding

namespace ByteFlow

open Machine

variable {τ ω α : Type}

/-- Whether the pipe operates is as said, and no edge is due unless it does. -/
structure Pipe.Operates (busy : Bool) (pipe : Pipe τ) : Prop where
  operating : pipe.operating = busy
  due : busy = false → pipe.pendingWritable = false

variable [Inhabited τ]

/-- Pipe `p` is in use, and operates or not as said. -/
def Operates (p : PipeId) (busy : Bool) (w : World τ ω) : Prop :=
  p < w.pipes.next ∧ (w.pipes.get p).Operates busy

namespace Operates

variable {p : PipeId} {busy : Bool} {w : World τ ω} {o : Owner τ ω}

theorem set_pipe (h : Operates p busy w) {q : PipeId} {pipe : Pipe τ}
    (same : q = p → pipe.Operates busy) :
    Operates p busy { w with pipes := w.pipes.set q pipe } := by
  by_cases own : q = p
  · subst own
    exact Table.set_self (P := Pipe.Operates busy) (same rfl)
  · exact Table.set_other (P := Pipe.Operates busy) h own pipe

/-- Most changes to a pipe have nothing to do with whether it operates. -/
theorem modifyPipe {q : PipeId} {f : Pipe τ → Pipe τ}
    (same : ∀ pipe, (f pipe).operating = pipe.operating ∧
      (f pipe).pendingWritable = pipe.pendingWritable) :
    Preserves (Operates (ω := ω) p busy) (modifyPipe q f) := by
  refine upholds_modifyPipe fun w h => h.set_pipe ?_
  rintro rfl
  obtain ⟨operating, pending⟩ := same (w.pipes.get q)
  exact ⟨operating.trans h.2.operating, fun idle => pending.trans (h.2.due idle)⟩

theorem aloof : Aloof (Operates (τ := τ) (ω := ω) p busy) where
  journal _ _ := id
  rings _ _ := id
  calls _ _ := modifyPipe fun _ => ⟨rfl, rfl⟩

variable [Transform τ]

section Reacting

variable
  (reacts : ∀ busy handler edge, Preserves (Operates p busy) (o.react handler edge))

include reacts

/-- A run of the pipe withstands itself while the pipe operates. -/
theorem withstands {q : PipeId} (goes : q = p → busy = true) :
    Withstands o q (.any (Operates p busy)) (Operates p busy) where
  halts _ := id
  log _ := aloof.record _
  take w segment rest h _ := by
    refine ⟨h.set_pipe fun own => ?_, trivial⟩
    subst own
    exact ⟨h.2.operating, h.2.due⟩
  put w segment h _ _ := h.set_pipe fun own => by
    subst own
    exact ⟨h.2.operating, h.2.due⟩
  mark w h := h.set_pipe fun own => by
    cases goes own
    subst own
    exact ⟨h.2.operating, nofun⟩
  advance w h _ := h.set_pipe fun own => by
    cases goes own
    subst own
    obtain ⟨_, _, _, _, _, same, _⟩ := (w.pipes.get q).advance_same q
    rw [same]
    exact ⟨h.2.operating, nofun⟩
  store d data := aloof.admits.store (reacts busy) d data

theorem operate {q : PipeId} (goes : q = p → busy = true) :
    Preserves (Operates p busy) (Pipe.operate o q) := by
  refine (withstands reacts goes).weathers.operate fun e => aloof.admits.fail ?_ ?_ (reacts busy) e
  · exact fun _ => modifyPipe fun _ => ⟨rfl, rfl⟩
  · exact fun _ _ _ => aloof.record _

omit [Transform τ] reacts in
theorem release {q : PipeId} {within : Bool} (own : q = p → busy = false)
    (other : q ≠ p → within = busy) :
    Upholds (Operates p busy) (Operates (ω := ω) p within) (Pipe.release (τ := τ) q) fun _ =>
      Operates p busy := by
  refine .pointwise fun w h => .at_getPipe (.at_modifyPipe (.at_record ?_))
  rintro _ rfl
  by_cases same : q = p
  · subst same
    exact Table.set_self (P := Pipe.Operates busy) ⟨(own rfl).symm, fun _ => rfl⟩
  · cases other same
    exact h.set_pipe fun own => (same own).elim

/-- A run of the pipe begins and ends while the pipe does not operate, or does not begin. -/
theorem run (q : PipeId) : Preserves (Operates p busy) (Pipe.run o q) := by
  refine aloof.during (.pointwise fun w h => .at_getPipe ?_) q
  split
  · exact .here h (aloof.record _)
  · rename_i idle
    obtain ⟨within, goes, other, started⟩ : ∃ within, (q = p → busy = false ∧ within = true) ∧
        (q ≠ p → within = busy) ∧ Operates p within
          { w with pipes := w.pipes.set q { w.pipes.get q with operating := true } } := by
      by_cases own : q = p
      · subst own
        have rests : busy = false := h.2.operating.symm.trans (Bool.eq_false_iff.2 idle)
        exact ⟨true, fun _ => ⟨rests, rfl⟩, fun other => (other rfl).elim,
          Table.set_self (P := Pipe.Operates true) ⟨rfl, nofun⟩⟩
      · exact ⟨busy, fun same => (own same).elim, fun _ => rfl,
          h.set_pipe fun same => (own same).elim⟩
    have releases := release (τ := τ) (ω := ω) (fun own => (goes own).1) other
    have operates := operate reacts (o := o) fun own => (goes own).2
    have starts : Upholds (Operates p busy) (Operates (τ := τ) (ω := ω) p within)
        (record (.started q)) fun _ => Operates p within := upholds_modify fun _ => id
    refine .at_modifyPipe (Upholds.bind (.here started starts) fun _ => ?_)
    refine Upholds.bind (operates.onHalt releases) fun _ => ?_
    refine releases.bind fun made_room => ?_
    split
    · exact aloof.admits.emit (reacts busy) fun _ _ => aloof.record _
    · exact preserves_pure _

/-- Every call leaves a pipe as it was in this, on whichever pipe or ring. -/
theorem perform {c : Call τ ω α}
    (reads : ∀ source, c.source? = some source →
      ∀ wanted, Preserves (Operates p busy) (source.read wanted))
    (ended : ∀ source, c.source? = some source → Preserves (Operates p busy) source.isEnded)
    (writes : ∀ sink, c.sink? = some sink →
      ∀ offered, Preserves (Operates p busy) (sink.write offered)) :
    Preserves (Operates p busy) (c.perform o) := by
  have admits := (aloof : Aloof (Operates (τ := τ) (ω := ω) p busy)).admits
  cases c with
  | feed q source =>
      exact admits.handles.feed (fun _ => modifyPipe fun _ => ⟨rfl, rfl⟩) (fun _ => aloof.record _)
        (run reacts q) (reads source rfl) (ended source rfl)
  | run q => exact run reacts q
  | empty q sink max => exact admits.empty (reacts busy) (run reacts) q (writes sink rfl) max
  | switch q candidate =>
      exact admits.handles.switch (fun r => aloof.modifyShared r _)
        (fun r => aloof.modifyShared r _) (modifyPipe fun _ => ⟨rfl, rfl⟩)
        (fun _ _ => aloof.record _) (run reacts q)
  | clear q => exact admits.clear q
  | clean q => exact admits.handles.giveBack admits.clean (modifyPipe fun _ => ⟨rfl, rfl⟩)
  | store r data => exact admits.store (reacts busy) r data
  | fill r source => exact admits.fill (reacts busy) r (reads source rfl) (ended source rfl)
  | pour r sink max => exact admits.pour (reacts busy) (run reacts) r (writes sink rfl) max

end Reacting

/-- Whatever a program does with pipes and rings, a pipe operates afterwards if it did before, as
long as that is so of everything it does besides. -/
theorem preserves_conduct {rules : Rules τ ω} {m : Machine τ ω α}
    (aside : ∀ {α : Type} {m : Machine τ ω α}, rules.ignores m →
      ∀ busy, Preserves (Operates p busy) m)
    (conduct : Conduct rules m) (busy : Bool) : Preserves (Operates p busy) m := by
  refine conduct.has (K := fun busy _ m => Preserves (Operates p busy) m)
    (fun _ => closed_preserves _) (fun _ _ _ => upholds_throw fun _ => id) aside ?_ busy
  intro β o c _ reads ended writes reacts busy
  exact perform reacts (fun source eq wanted => reads source eq wanted busy)
    (fun source eq => ended source eq busy) fun sink eq offered => writes sink eq offered busy

end Operates

end ByteFlow
