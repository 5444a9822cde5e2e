/-
# Entering a pipe and leaving it

A call of a pipe counts itself as long as it is in progress, and the last one takes the listener
away if the pipe was dropped. A call of which the body does nothing changes nothing else, and what a
call does is what its body does once the pipe was entered. A run is a call that also says on record
when it begins and ends.
-/

import ByteFlow.Pipe.Run
import ByteFlow.Proofs.Ensures

namespace ByteFlow

open Machine

variable {τ ω α : Type} [Inhabited τ]

/-- The world with a change to pipe `p`. -/
def World.changed (p : PipeId) (f : Pipe τ → Pipe τ) (w : World τ ω) : World τ ω :=
  { w with pipes := w.pipes.set p (f (w.pipes.get p)) }

@[simp]
theorem World.get_changed (p : PipeId) (f : Pipe τ → Pipe τ) (w : World τ ω) :
    (w.changed p f).pipes.get p = f (w.pipes.get p) := by
  rw [changed, Table.get_set, if_pos rfl]

/-- The world once a run of the pipe has begun. -/
def World.begun (p : PipeId) (w : World τ ω) : World τ ω :=
  { w.changed p fun pipe => { pipe with operating := true } with
    journal := .started p :: w.journal }

/-- The world once a run of the pipe has ended, and has told of nothing yet. -/
def World.released (p : PipeId) (w : World τ ω) : World τ ω :=
  { w.changed p fun pipe => { pipe with operating := false, pendingWritable := false } with
    journal := .ended p (w.pipes.get p).pendingWritable (w.pipes.get p).handlers :: w.journal }

theorem Pipe.release_eq (p : PipeId) (w : World τ ω) :
    Pipe.release p w = .ok (w.pipes.get p).pendingWritable (w.released p) := rfl

theorem Machine.ensures_release {p : PipeId} {w : World τ ω} {post : Bool → World τ ω → Prop}
    (h : post (w.pipes.get p).pendingWritable (w.released p)) :
    Ensures (· = w) (Pipe.release p) post := by
  rintro _ freed w' rfl ran
  cases (Pipe.release_eq p _).symm.trans ran
  exact h

/-- The world once a call of the pipe was entered. -/
def World.entered (p : PipeId) (w : World τ ω) : World τ ω :=
  { w with pipes := w.pipes.set p { w.pipes.get p with calls := (w.pipes.get p).calls + 1 } }

/-- The world once a call of the pipe was left, if the pipe goes on living. -/
def World.left (p : PipeId) (w : World τ ω) : World τ ω :=
  { w with pipes := w.pipes.set p { w.pipes.get p with calls := (w.pipes.get p).calls - 1 } }

namespace Pipe

variable {p : PipeId} {w : World τ ω}

theorem get_entered : (w.entered p).pipes.get p =
    { w.pipes.get p with calls := (w.pipes.get p).calls + 1 } := by
  rw [World.entered, Table.get_set, if_pos rfl]

/-- To enter a pipe and leave it again changes nothing, unless the pipe's life ends with that. -/
theorem exists_during_pure (p : PipeId) (w : World τ ω) :
    ∃ pipes rings, (∀ q, pipes.get q = w.pipes.get q) ∧
      (∀ r, (rings.get r).ring = (w.rings.get r).ring) ∧
      ((w.pipes.get p).isAlive → rings = w.rings) ∧
      ∀ a : α, during p (pure a) w = .ok a { w with pipes, rings } := by
  let pipe := w.pipes.get p
  let inside := w.pipes.set p { pipe with calls := pipe.calls + 1 }
  let outside := inside.set p { inside.get p with calls := (inside.get p).calls - 1 }
  have same : ∀ q, outside.get q = w.pipes.get q := by
    intro q
    by_cases own : p = q
    · rw [Table.get_set, if_pos own, Table.get_set, if_pos rfl, ← own]
      rfl
    · rw [Table.get_set, if_neg own, Table.get_set, if_neg own]
  have left : (retire p : Machine τ ω Unit) { w with pipes := outside } =
      (if (w.pipes.get p).isAlive then pure ()
        else detach (w.pipes.get p).destination (.listener p)) { w with pipes := outside } := by
    change (if !(outside.get p).isAlive then detach (outside.get p).destination (.listener p)
      else pure () : Machine τ ω Unit) { w with pipes := outside } = _
    rw [same]
    cases (w.pipes.get p).isAlive <;> rfl
  cases alive : (w.pipes.get p).isAlive with
  | true =>
      rw [alive] at left
      exact ⟨outside, w.rings, same, fun _ => rfl, fun _ => rfl,
        fun a => (bind_of_ok left).trans rfl⟩
  | false =>
      rw [alive] at left
      let shared := w.rings.get (w.pipes.get p).destination
      let rings := w.rings.set (w.pipes.get p).destination
        { shared with observers := shared.observers.filter (· ≠ .listener p) }
      exact ⟨outside, rings, same, ring_set_observers _ _ _, nofun,
        fun a => (bind_of_ok left).trans rfl⟩

/-- A call of a pipe that lives, with a body that does nothing, changes nothing at all. -/
theorem during_pure (inUse : p < w.pipes.next) (alive : (w.pipes.get p).isAlive) (a : α) :
    during p (pure a) w = .ok a w := by
  have restored : (w.entered p).pipes.set p { (w.entered p).pipes.get p with
      calls := ((w.entered p).pipes.get p).calls - 1 } = w.pipes := by
    rw [get_entered]
    exact (Table.set_set _ _ _ _).trans (Table.set_get inUse)
  have left : (do
      modifyPipe p fun pipe => { pipe with calls := pipe.calls - 1 }
      retire p : Machine τ ω Unit) (w.entered p) = .ok () w := by
    change (retire p : Machine τ ω Unit) { w with pipes := (w.entered p).pipes.set p _ } = _
    rw [restored]
    change (if !(w.pipes.get p).isAlive then detach (w.pipes.get p).destination (.listener p)
      else pure () : Machine τ ω Unit) w = _
    rw [alive]
    rfl
  exact (bind_of_ok left).trans rfl

/-- What a call does is what its body does once the pipe was entered. -/
theorem during_congr {body body' : Machine τ ω α} {w' : World τ ω}
    (same : body (w.entered p) = body' (w'.entered p)) : during p body w = during p body' w' := by
  change EStateM.bind (EStateM.tryCatch body _) _ (w.entered p) =
    EStateM.bind (EStateM.tryCatch body' _) _ (w'.entered p)
  unfold EStateM.bind EStateM.tryCatch
  rw [same]

/-- A call of a pipe that is held afterwards only takes itself out of the count. -/
theorem during_of_ok {body : Machine τ ω α} {a : α} {w' : World τ ω}
    (ran : body (w.entered p) = .ok a w') (held : (w'.pipes.get p).held = true) :
    during p body w = .ok a (w'.left p) := by
  have alive : ((w'.left p).pipes.get p).isAlive = true := by
    rw [World.left, Table.get_set, if_pos rfl, isAlive]
    exact Bool.or_eq_true_iff.2 (.inl held)
  have left : (do
      modifyPipe p fun pipe => { pipe with calls := pipe.calls - 1 }
      retire p : Machine τ ω Unit) w' = .ok () (w'.left p) := by
    change (if !((w'.left p).pipes.get p).isAlive then _ else pure () : Machine τ ω Unit)
      (w'.left p) = _
    rw [alive]
    rfl
  exact (bind_of_ok (tryCatch_of_ok ran)).trans ((bind_of_ok left).trans rfl)

end Pipe

/-- The content of a ring, and where it lies. -/
def World.content (r : RingId) (w : World τ ω) : Ring := (w.rings.get r).ring

/-- A call of pipe `p` has changed nothing that can be noticed; events went on record, newest first.
If the pipe's life ended with the call, its listener is gone. -/
structure Passed (p : PipeId) (events : List Event) (w w' : World τ ω) : Prop where
  pipes : ∀ q, w'.pipes.get q = w.pipes.get q
  content : ∀ r, w'.content r = w.content r
  rings : (w.pipes.get p).isAlive → w'.rings = w.rings
  journal : w'.journal = events ++ w.journal
  owner : w'.owner = w.owner

theorem exists_passed (p : PipeId) (events : List Event) (w : World τ ω) (a : α) :
    ∃ w', Passed p events w w' ∧
      Pipe.during p (pure a) { w with journal := events ++ w.journal } = .ok a w' := by
  obtain ⟨pipes, rings, same, content, alive, entered⟩ :=
    Pipe.exists_during_pure (α := α) p { w with journal := events ++ w.journal }
  exact ⟨{ w with pipes, rings, journal := events ++ w.journal },
    ⟨same, content, alive, rfl, rfl⟩, entered a⟩

end ByteFlow
