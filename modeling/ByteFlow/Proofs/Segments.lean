/-
# Queues as byte strings

Whoever pushes segments into a queue and takes them out again sees a string of bytes that grows and
shrinks at both ends. `Desk` is a queue together with the segments that were taken out of it: they
can be worked on, for instance be drained into a sink as far as it takes them, and be put back. A
run of a pipe does that with one segment at a time.

`Flat` is the string, with what may be seen of the segments that are out, and `Flat.Step` says what
each move does to it. A segment that comes back does not hold what it held when it left, and one
that holds nothing is dropped without a word; the string shows neither.

The number of waiting bytes is kept beside the segments. It is right after every move, and is never
lowered by more than it is.
-/

import ByteFlow.Proofs.Fifo
import ByteFlow.Proofs.Vetting

namespace ByteFlow

variable {σ : Type}

/-! ## What is done with a queue -/

/-- A queue, and the segments that were taken out of it, the last one first. -/
structure Desk where
  queue : Queue
  out : List Ring

/-- A move of somebody who holds a queue. The streams that are met share the state `σ`. -/
inductive Move (σ : Type) where
  /-- A segment joins at the back. -/
  | pushBack (segment : Ring)
  /-- A segment joins in front. -/
  | pushFront (segment : Ring)
  /-- The head segment is taken out. -/
  | popFront
  /-- A segment that is out is worked on. -/
  | work (i : Nat) (act : Act σ)
  /-- A segment that is out goes back in front. -/
  | putBack (i : Nat)
  /-- All waiting segments are dropped. -/
  | clear

/-- Segments that join were made by operations on rings, and streams keep to what they are asked. -/
def Move.Honest : Move σ → Prop
  | .pushBack segment | .pushFront segment => segment.Reachable
  | .work _ act => act.Honest
  | _ => True

namespace Desk

/-- A new queue. -/
def empty : Desk := ⟨.empty, []⟩

/-- Makes a move. There is nothing to it if the segment is not there. -/
def perform (d : Desk) : Move σ → StateM σ Desk
  | .pushBack segment => pure { d with queue := d.queue.pushBack segment }
  | .pushFront segment => pure { d with queue := d.queue.pushFront segment }
  | .popFront =>
    match d.queue.popFront with
    | none => pure d
    | some (segment, rest) => pure ⟨rest, segment :: d.out⟩
  | .work i act =>
    match d.out[i]? with
    | none => pure d
    | some segment => do
      let (after, _) ← segment.perform act
      return { d with out := d.out.set i after }
  | .putBack i =>
    match d.out[i]? with
    | none => pure d
    | some segment => pure ⟨d.queue.pushFront segment, d.out.eraseIdx i⟩
  | .clear => pure { d with queue := d.queue.clear }

/-- Makes moves, one after the other. -/
def performAll (d : Desk) : List (Move σ) → StateM σ Desk
  | [] => pure d
  | move :: moves => do (← d.perform move).performAll moves

/-- Makes a move, with every access and every difference checked. -/
def perform? (d : Desk) : Move σ → StateT σ Option Desk
  | .popFront => do
    match ← d.queue.popFront? with
    | none => return d
    | some (segment, rest) => return ⟨rest, segment :: d.out⟩
  | .work i act =>
    match d.out[i]? with
    | none => pure d
    | some segment => do
      let (after, _) ← segment.perform? act
      return { d with out := d.out.set i after }
  | move => Ring.surely (d.perform move)

/-- Makes moves, one after the other, with every access and every difference checked. -/
def performAll? (d : Desk) : List (Move σ) → StateT σ Option Desk
  | [] => pure d
  | move :: moves => do (← d.perform? move).performAll? moves

end Desk

/-! ## The string -/

/-- The waiting bytes, and what the segments that are out show. -/
structure Flat where
  content : Bytes
  out : List Fifo

/-- The string that waits. -/
def Desk.view (d : Desk) : Flat := ⟨d.queue.toList, d.out.map Ring.view⟩

namespace Flat

/-- What a move does to the string. -/
inductive Step : Flat → σ → Move σ → Flat → σ → Prop
  | append {f : Flat} {s : σ} {segment : Ring} :
      Step f s (.pushBack segment) { f with content := f.content ++ segment.view.content } s
  | prepend {f : Flat} {s : σ} {segment : Ring} :
      Step f s (.pushFront segment) { f with content := segment.view.content ++ f.content } s
  | remove {head : Fifo} {rest : Bytes} {out : List Fifo} {s : σ} (some : head.content ≠ []) :
      Step ⟨head.content ++ rest, out⟩ s .popFront ⟨rest, head :: out⟩ s
  | nothing {out : List Fifo} {s : σ} : Step ⟨[], out⟩ s .popFront ⟨[], out⟩ s
  | work {f : Flat} {s s' : σ} {i : Nat} {act : Act σ} {before after : Fifo} {reply : Reply}
      (at_hand : f.out[i]? = some before) (step : Fifo.Step before s act reply after s') :
      Step f s (.work i act) { f with out := f.out.set i after } s'
  | work_missing {f : Flat} {s : σ} {i : Nat} {act : Act σ} (missing : f.out[i]? = none) :
      Step f s (.work i act) f s
  | putBack {f : Flat} {s : σ} {i : Nat} {segment : Fifo} (at_hand : f.out[i]? = some segment) :
      Step f s (.putBack i) ⟨segment.content ++ f.content, f.out.eraseIdx i⟩ s
  | putBack_missing {f : Flat} {s : σ} {i : Nat} (missing : f.out[i]? = none) :
      Step f s (.putBack i) f s
  | clear {f : Flat} {s : σ} : Step f s .clear { f with content := [] } s

/-- What several moves do, one after the other. -/
inductive Steps : Flat → σ → List (Move σ) → Flat → σ → Prop
  | nil {f : Flat} {s : σ} : Steps f s [] f s
  | cons {f f' f'' : Flat} {s s' s'' : σ} {move : Move σ} {moves : List (Move σ)}
      (step : Step f s move f' s') (steps : Steps f' s' moves f'' s'') :
      Steps f s (move :: moves) f'' s''

end Flat

/-! ## A queue takes the steps of the string -/

/-- The numbers that a queue shows are those of its segments, and the segments are its content. -/
structure Queue.Exact (q : Queue) : Prop where
  bytes_eq : q.bytes = (q.segments.map Ring.used).sum
  held : ∀ segment ∈ q.segments, segment.isEmpty = false
  length_eq : q.length = q.segments.length
  isEmpty_iff : q.isEmpty ↔ q.bytes = 0
  content : q.toList = (q.segments.map fun segment => segment.view.content).flatten

theorem Queue.Valid.exact {q : Queue} (valid : q.Valid) : q.Exact where
  bytes_eq := by
    rw [valid.bytes_eq, toList, List.length_flatMap]
    refine congrArg List.sum (List.map_congr_left fun segment held => ?_)
    exact (valid.segments segment held).1.length_toList
  held segment held := beq_eq_false_iff_ne.2 (valid.segments segment held).2
  length_eq := length_eq_length_segments q
  isEmpty_iff := isEmpty_iff_bytes_eq_zero valid
  content := List.flatMap_def

/-- The queue counts rightly, and what is out are valid rings. -/
structure Desk.Valid (d : Desk) : Prop where
  queue : d.queue.Valid
  out : ∀ segment ∈ d.out, segment.Valid

namespace Desk

variable {d after : Desk}

theorem valid_empty : empty.Valid := ⟨Queue.valid_empty, nofun⟩

theorem Valid.at_hand (valid : d.Valid) {i : Nat} {segment : Ring}
    (at_hand : d.out[i]? = some segment) :
    segment.Valid ∧ d.view.out[i]? = some segment.view := by
  refine ⟨valid.out segment (List.mem_of_getElem? at_hand), ?_⟩
  rw [view, List.getElem?_map, at_hand]
  rfl

theorem getElem?_view_eq_none {i : Nat} (missing : d.out[i]? = none) : d.view.out[i]? = none := by
  rw [view, List.getElem?_map, missing]
  rfl

/-- Each move takes the step of the string that it names. -/
theorem step_perform {move : Move σ} (honest : move.Honest) (valid : d.Valid) {s s' : σ}
    (ran : d.perform move s = (after, s')) :
    Flat.Step d.view s move after.view s' ∧ after.Valid := by
  cases move with
  | pushBack segment =>
      cases ran
      refine ⟨?_, valid.queue.pushBack honest.valid, valid.out⟩
      simp only [view, Queue.toList_pushBack d.queue honest.valid]
      exact .append
  | pushFront segment =>
      cases ran
      refine ⟨?_, valid.queue.pushFront honest.valid, valid.out⟩
      simp only [view, Queue.toList_pushFront d.queue honest.valid]
      exact .prepend
  | popFront =>
      cases popped : d.queue.popFront with
      | none =>
          rw [perform, popped] at ran
          cases ran
          have none : d.queue.toList = [] := by
            rw [Queue.toList, Queue.popFront_eq_none_iff.1 popped]
            rfl
          refine ⟨?_, valid⟩
          rw [view, none]
          exact .nothing
      | some taken =>
          obtain ⟨segment, rest⟩ := taken
          rw [perform, popped] at ran
          cases ran
          obtain ⟨held, some, left, _⟩ := valid.queue.popFront popped
          have bytes : segment.view.content ≠ [] := fun none =>
            some (beq_iff_eq.1 ((Ring.toList_eq_nil_iff held).1 none))
          refine ⟨?_, left, List.forall_mem_cons.2 ⟨held, valid.out⟩⟩
          rw [view, Queue.toList_popFront popped]
          exact .remove bytes
  | work i act =>
      cases found : d.out[i]? with
      | none =>
          rw [perform, found] at ran
          cases ran
          exact ⟨.work_missing (getElem?_view_eq_none found), valid⟩
      | some segment =>
          rcases worked : segment.perform act s with ⟨⟨left, reply⟩, s₁⟩
          rw [perform, found] at ran
          dsimp only at ran
          rw [Ring.stateM_bind, worked] at ran
          cases ran
          obtain ⟨held, shown⟩ := valid.at_hand found
          obtain ⟨step, kept⟩ := Ring.step_perform honest held worked
          refine ⟨?_, valid.queue, fun other member => ?_⟩
          · simp only [view, List.map_set]
            exact .work shown step
          · rcases List.mem_or_eq_of_mem_set member with old | rfl
            · exact valid.out other old
            · exact kept
  | putBack i =>
      cases found : d.out[i]? with
      | none =>
          rw [perform, found] at ran
          cases ran
          exact ⟨.putBack_missing (getElem?_view_eq_none found), valid⟩
      | some segment =>
          rw [perform, found] at ran
          cases ran
          obtain ⟨held, shown⟩ := valid.at_hand found
          have rest : (d.out.eraseIdx i).map Ring.view = (d.out.map Ring.view).eraseIdx i := by
            simp only [List.eraseIdx_eq_take_drop_succ, List.map_append, List.map_take,
              List.map_drop]
          refine ⟨?_, valid.queue.pushFront held, fun other member => ?_⟩
          · simp only [view, Queue.toList_pushFront d.queue held, rest]
            exact .putBack shown
          · exact valid.out other (List.mem_of_mem_eraseIdx member)
  | clear =>
      cases ran
      exact ⟨.clear, Queue.valid_empty, valid.out⟩

theorem steps_performAll {moves : List (Move σ)} (honest : ∀ move ∈ moves, move.Honest)
    (valid : d.Valid) {s s' : σ} (ran : d.performAll moves s = (after, s')) :
    Flat.Steps d.view s moves after.view s' ∧ after.Valid := by
  induction moves generalizing d s with
  | nil =>
      cases ran
      exact ⟨.nil, valid⟩
  | cons move moves ih =>
      rcases first : d.perform move s with ⟨middle, s₁⟩
      rw [performAll, Ring.stateM_bind, first] at ran
      obtain ⟨first_honest, rest_honest⟩ := List.forall_mem_cons.1 honest
      obtain ⟨step, kept⟩ := step_perform first_honest valid first
      obtain ⟨steps, last⟩ := ih rest_honest kept ran
      exact ⟨.cons step steps, last⟩

theorem perform?_eq {move : Move σ} (honest : move.Honest) (valid : d.Valid) (s : σ) :
    d.perform? move s = some (d.perform move s) := by
  cases move with
  | popFront =>
      rw [perform?, Queue.popFront?_eq valid.queue, perform]
      cases d.queue.popFront <;> rfl
  | work i act =>
      cases found : d.out[i]? with
      | none =>
          rw [perform?, perform, found]
          rfl
      | some segment =>
          have worked := Ring.perform?_eq honest (valid.at_hand found).1 s
          rw [perform?, perform, found]
          change (segment.perform? act s >>= _) = _
          rw [worked]
          rfl
  | pushBack segment => rfl
  | pushFront segment => rfl
  | putBack i => rfl
  | clear => rfl

theorem performAll?_eq {moves : List (Move σ)} (honest : ∀ move ∈ moves, move.Honest)
    (valid : d.Valid) (s : σ) : d.performAll? moves s = some (d.performAll moves s) := by
  induction moves generalizing d s with
  | nil => rfl
  | cons move moves ih =>
      obtain ⟨first_honest, rest_honest⟩ := List.forall_mem_cons.1 honest
      rcases ran : d.perform move s with ⟨middle, s₁⟩
      obtain ⟨_, kept⟩ := step_perform first_honest valid ran
      rw [performAll, Ring.stateM_bind, ran]
      change (d.perform? move s >>= _) = _
      rw [perform?_eq first_honest valid, ran]
      exact ih rest_honest kept s₁

/-- Whatever is done with a queue, from when it is made, its content is what becomes of a string of
bytes when segments join at its ends and leave in front. After every move the number of waiting
bytes is what the segments hold together, no segment is empty, and the queue is empty exactly if
that number is zero. No access and no difference goes wrong on the way. -/
theorem refines_flat {moves : List (Move σ)} (honest : ∀ move ∈ moves, move.Honest) (s : σ) :
    ∃ after s',
      empty.performAll moves s = (after, s') ∧
      empty.performAll? moves s = some (after, s') ∧
      Flat.Steps ⟨[], []⟩ s moves after.view s' ∧ after.queue.Exact := by
  rcases ran : empty.performAll moves s with ⟨after, s'⟩
  obtain ⟨steps, valid⟩ := steps_performAll honest valid_empty ran
  refine ⟨after, s', rfl, ?_, steps, valid.queue.exact⟩
  rw [performAll?_eq honest valid_empty, ran]

namespace Shunting

/-- A ring to which some operations have happened. -/
def segment (built : Ring) (acts : List (Act Unit)) : Ring := (built.performAll acts ()).1.1

/-- Its content, `[3, 4, 5, 6]`, goes round the end of the circle. -/
def wrapped : Ring :=
  segment (.empty 4 .heap) [.store [1, 2, 3], .consume 2, .store [4, 5, 6]]

/-- It holds `[8, 9]`, which is not all that it held. -/
def begun : Ring := segment (.wrap [7, 8, 9]) [.consume 1]

/-- It never held anything. -/
def spare : Ring := segment (.empty 2 .fixed) []

/-- It was given up. -/
def cleaned : Ring := segment (.wrap [0]) [.clean]

/-- Segments join at both ends, two of them with nothing in them. The one in front leaves twice and
comes back twice, the second time with nothing left; of the next one a byte remains. -/
def moves : List (Move Bytes) :=
  [.pushBack wrapped, .pushBack spare, .pushBack cleaned, .pushFront begun,
    .popFront, .work 0 (.writeTo .toBytes 1), .putBack 0,
    .popFront, .work 0 (.writeTo .toBytes 9), .putBack 0,
    .popFront, .work 0 (.writeTo .toBytes 3), .putBack 0]

theorem reachable {built : Ring} (made : built.Built) {acts : List (Act Unit)}
    (honest : ∀ act ∈ acts, act.Honest) : (segment built acts).Reachable :=
  ⟨Unit, built, acts, (), made, honest, rfl⟩

theorem built_empty {capacity : Nat} (fits : capacity ≤ Block.maxSize) (region : Region) :
    (Ring.empty capacity region).Built :=
  .create (Ring.create_eq_ok_iff.2 ⟨fits, rfl⟩)

theorem honest_moves : ∀ move ∈ moves, move.Honest := by
  have wrapped : wrapped.Reachable :=
    reachable (built_empty (by decide) .heap) (by simp [Act.Honest])
  have spare : spare.Reachable := reachable (built_empty (by decide) .fixed) (by simp)
  have begun : begun.Reachable := reachable (.wrap _) (by simp [Act.Honest])
  have cleaned : cleaned.Reachable := reachable (.wrap _) (by simp [Act.Honest])
  simp [moves, Move.Honest, Act.Honest, wrapped, spare, begun, cleaned, Ring.Turn.honest_toBytes]

end Shunting

theorem refines_flat_shunting :
    (∀ move ∈ Shunting.moves, move.Honest) ∧ ∃ after,
      empty.performAll? Shunting.moves [] = some (after, [8, 9, 3, 4, 5]) ∧
      Flat.Steps ⟨[], []⟩ [] Shunting.moves after.view [8, 9, 3, 4, 5] ∧
      after.queue.Exact ∧ after.queue.toList = [6] ∧ after.queue.bytes = 1 := by
  obtain ⟨after, s', ran, checked, steps, exact⟩ := refines_flat Shunting.honest_moves []
  have given : (empty.performAll Shunting.moves []).2 = [8, 9, 3, 4, 5] := by decide +kernel
  have left : (empty.performAll Shunting.moves []).1.queue.toList = [6] := by decide +kernel
  have count : (empty.performAll Shunting.moves []).1.queue.bytes = 1 := by decide +kernel
  rw [ran] at given left count
  subst given
  exact ⟨Shunting.honest_moves, after, checked, steps, exact, left, count⟩

end Desk

end ByteFlow
