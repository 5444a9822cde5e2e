/-
# One advance over a coded stream

A transform codes a format if every call of it handles the format, and leaves the transform as it
was. In a pipe whose source serves the format, an advance of such a transform goes one of four ways.
It makes progress, and then the source is lighter than before: it holds fewer bytes, or the same
bytes in one piece. It finds nothing to do, and then the pipe is quiet: the queue is waiting to be
drained, or there is room for the rest of an incomplete unit. Or the stream ends, because a unit
that fills the source is incomplete still, or because the transform has rejected a unit.
-/

import ByteFlow.Proofs.Advance
import ByteFlow.Proofs.Units

namespace ByteFlow

variable {τ : Type}

/-- The transform handles the format in every call that a pipe makes, which is one with a sound
queue below its ceiling, and a call leaves nothing behind in it. -/
structure Format.Codes [Transform τ] (F : Format) (t : τ) : Prop where
  same : ∀ input o, (Transform.call t input o).next = t
  handles : ∀ input (o : Output), o.queue.Sound → o.queue.bytes < o.ceiling →
    ∃ step, (Transform.call t input o).result = .ok step ∧
      F.Handles 0 input o (step, (Transform.call t input o).output)

/-- A ring that serves as the source for a format: it was not cleaned, and if units may have to be
put together from two pieces, it is on the heap. -/
structure Ring.Serves (r : Ring) (F : Format) (capacity : Nat) : Prop where
  valid : r.Valid
  intact : r.cleaned = false
  movable : ∀ {rest : Bytes}, F.incomplete rest → r.region = .heap
  size : r.capacity = capacity

namespace Ring

/-- A ring is as light as it has few bytes; to have them in two pieces weighs like one byte more. -/
def weight (r : Ring) : Nat := r.used + if r.isContiguous then 0 else 1

theorem weight_of_isContiguous {r : Ring} (piece : r.isContiguous) : r.weight = r.used := by
  rw [weight, if_pos piece, Nat.add_zero]

theorem used_le_weight (r : Ring) : r.used ≤ r.weight := Nat.le_add_right _ _

/-- Content in one piece is all readable. -/
theorem toList_readable_of_isContiguous {r : Ring} (piece : r.isContiguous) :
    r.readable.toList = r.toList := by
  have inside : r.head + r.used ≤ r.capacity := of_decide_eq_true piece
  have whole : r.usedToEnd = r.used := by
    unfold usedToEnd
    omega
  rw [toList, spans, whole, Nat.sub_self, Block.toList_slice _ 0, List.take_zero, List.append_nil]

/-- An incomplete unit in a ring that serves can be moved into one piece. -/
theorem Serves.defragment {r : Ring} {F : Format} {capacity : Nat} (h : r.Serves F capacity)
    {rest : Bytes} (incomplete : F.incomplete rest) :
    ∃ moved, r.defragment = .ok moved ∧ moved.used = r.used ∧ moved.isContiguous := by
  refine ⟨_, (if_neg (Bool.eq_false_iff.1 h.intact)).trans (if_pos ?_), rfl, ?_⟩
  · rw [h.movable incomplete]
    rfl
  · apply decide_eq_true
    change 0 + r.used ≤ r.capacity
    have inside := h.valid.used_le
    omega

theorem Serves.canDefragment {r : Ring} {F : Format} {capacity : Nat} (h : r.Serves F capacity)
    {rest : Bytes} (incomplete : F.incomplete rest) : r.canDefragment = true := by
  rw [Ring.canDefragment, h.movable incomplete, h.intact]
  rfl

theorem Serves.discard {r : Ring} {F : Format} {capacity count : Nat} (h : r.Serves F capacity)
    (le : count ≤ r.used) : (r.discard count).Serves F capacity :=
  ⟨h.valid.discard le, h.intact, h.movable, h.size⟩

theorem discard_zero {r : Ring} (valid : r.Valid) : r.discard 0 = r := by
  have head : (if r.used - 0 = 0 then 0 else (r.head + 0) % r.capacity) = r.head := by
    split
    · rename_i none
      exact (valid.head_eq none).symm
    · rename_i some
      exact Nat.mod_eq_of_lt (valid.head_lt some)
  rw [discard, head, Nat.sub_zero]

/-- To drop bytes from the front makes a ring lighter. -/
theorem weight_discard {r : Ring} {count : Nat} (le : count ≤ r.used) (some : 0 < count) :
    (r.discard count).weight < r.weight := by
  by_cases piece : r.isContiguous
  · rw [weight_of_isContiguous piece, weight_of_isContiguous (isContiguous_discard piece le)]
    change r.used - count < r.used
    omega
  · unfold weight
    rw [if_neg piece]
    change r.used - count + _ < _
    split <;> omega

end Ring

/-- Nothing is to be done for a pipe that is quiet: the transform may not be called, or it waits for
the queue to be drained, or for the rest of a unit, for which there is room. -/
def Format.Quiet (F : Format) (pipe : Pipe τ) : Prop :=
  pipe.isReady →
    (pipe.queue.isEmpty = false ∧
      ∃ input, input ≠ [] ∧ input <+: pipe.source.toList ∧ ¬F.incomplete input) ∨
    (F.incomplete pipe.source.toList ∧ pipe.source.free ≠ 0)

/-- It is a matter of the source, the queue and the ceiling whether a pipe is quiet. -/
theorem Format.Quiet.of_same {F : Format} (pipe pipe' : Pipe τ)
    (source : pipe'.source = pipe.source)
    (queue : pipe'.queue = pipe.queue) (options : pipe'.options = pipe.options)
    (quiet : F.Quiet pipe) : F.Quiet pipe' := by
  intro ready
  rw [Pipe.isReady, source, queue, options] at ready
  rw [source, queue]
  exact quiet ready

/-- What was emitted is as long as the chunks that were pushed. -/
theorem Output.length_chunks (o : Output) : o.chunks.flatten.length = o.emitted := by
  unfold chunks emitted
  induction o.pushed with
  | nil => rfl
  | cons chunk pushed ih =>
      rw [List.reverse_cons, List.flatten_append, List.length_append, ih, List.flatten_singleton]
      exact Nat.add_comm _ _

namespace Pipe

variable {F : Format}

/-- The ways an advance can go that uses `used` and pushes `pushed`. -/
inductive Turns (F : Format) (pipe : Pipe τ) : (used pushed : Bytes) → (after : Pipe τ) →
    Except Error Bool → Prop where
  | onward {used pushed : Bytes} {after : Pipe τ} (translates : Translates F.unit used pushed)
      (lighter : after.source.weight < pipe.source.weight) :
      Turns F pipe used pushed after (.ok true)
  | idle {after : Pipe τ} (quiet : after.queue = pipe.queue → F.Quiet after)
      (still : after.source.weight ≤ pipe.source.weight) :
      Turns F pipe [] [] after (.ok false)
  | starved {after : Pipe τ} (incomplete : F.incomplete after.source.toList)
      (full : after.source.free = 0) : Turns F pipe [] [] after (.error .underflow)
  | refused {used rest more pushed : Bytes} {after : Pipe τ} {cause : Cause}
      (content : after.source.toList = used ++ rest ++ more)
      (translates : Translates F.unit used pushed) (rejected : F.rejected rest cause) :
      Turns F pipe [] pushed after (.error (.transform (some cause)))

theorem tidy_of_serves {pipe : Pipe τ} {capacity : Nat} (serves : pipe.source.Serves F capacity)
    {rest : Bytes} (incomplete : F.incomplete rest) :
    pipe.tidy.1.source.used = pipe.source.used ∧ pipe.tidy.1.source.isContiguous := by
  obtain ⟨moved, eq, used, piece⟩ := serves.defragment incomplete
  rw [tidy, eq]
  exact ⟨used, piece⟩

theorem absorb_done {pipe : Pipe τ} {consumed : Nat} (le : consumed ≤ pipe.source.readable.size)
    (events : List Event) (emitted : Nat) :
    ∃ later, pipe.absorb events (.done consumed) emitted =
      ⟨pipe.consume consumed, later, .ok (.ok (0 < consumed || 0 < emitted))⟩ :=
  ⟨_, if_neg (Nat.not_lt.2 le)⟩

theorem absorb_underflow {pipe : Pipe τ} {consumed : Nat}
    (le : consumed ≤ pipe.source.readable.size) (events : List Event) (emitted : Nat) :
    ∃ later, pipe.absorb events (.underflow consumed) emitted =
      (pipe.consume consumed).applyRemedy later (.of (0 < consumed || 0 < emitted)
        (!pipe.source.isContiguous) pipe.source.isFull
        (pipe.consume consumed).source.canDefragment) :=
  ⟨_, if_neg (Nat.not_lt.2 le)⟩

/-- A step that used something makes progress, and is followed by another. -/
theorem turns_absorb_of_used {pipe after : Pipe τ} {capacity : Nat}
    (source : after.source = pipe.source) (serves : pipe.source.Serves F capacity)
    {used rest pushed : Bytes} (input : pipe.source.readable.toList = used ++ rest)
    (some : used ≠ []) (translates : Translates F.unit used pushed) {step : Step}
    (stops : F.Stops 0 used rest pipe.queue step) (events : List Event) (emitted : Nat)
    (sane : ∀ cause, step ≠ .errored cause) :
    ∃ outcome, (after.absorb events step emitted).outcome = .ok outcome ∧
      pipe.Turns F used pushed (after.absorb events step emitted).pipe outcome := by
  have counted := List.length_pos_iff.2 some
  have le : used.length ≤ pipe.source.readable.size := by
    rw [← Block.length_toList, input, List.length_append]
    exact Nat.le_add_right _ _
  have inside : used.length ≤ pipe.source.used := by
    rw [← Block.length_toList, Ring.length_readable serves.valid] at le
    exact Nat.le_trans le (Nat.min_le_left _ _)
  have progress : (0 < used.length || 0 < emitted) = true := by
    rw [decide_eq_true counted, Bool.true_or]
  rw [← source] at le
  cases step with
  | errored cause => exact (sane cause rfl).elim
  | done total =>
      obtain ⟨rfl, _⟩ := stops
      rw [Nat.zero_add]
      obtain ⟨later, eq⟩ := absorb_done le events emitted
      rw [eq, progress]
      refine ⟨_, rfl, .onward translates ?_⟩
      change (after.source.discard used.length).weight < _
      rw [source]
      exact Ring.weight_discard inside counted
  | underflow total =>
      obtain ⟨rfl, incomplete⟩ := stops
      rw [Nat.zero_add]
      obtain ⟨later, eq⟩ := absorb_underflow le events emitted
      rw [eq, progress]
      refine ⟨_, rfl, .onward translates ?_⟩
      have left : (after.consume used.length).source.Serves F capacity := by
        change (after.source.discard used.length).Serves F capacity
        rw [source]
        exact serves.discard inside
      obtain ⟨same, piece⟩ := tidy_of_serves left incomplete
      change (after.consume used.length).tidy.1.source.weight < _
      rw [Ring.weight_of_isContiguous piece, same]
      change after.source.used - used.length < _
      rw [source]
      have light := pipe.source.used_le_weight
      omega

/-- To have used nothing leaves the source as it is. -/
theorem consume_zero {pipe after : Pipe τ} (source : after.source = pipe.source)
    (valid : pipe.source.Valid) : (after.consume 0).source = pipe.source := by
  rw [← source] at valid
  exact (Ring.discard_zero valid).trans source

/-- An incomplete unit at the front of the source is put together if it is in two pieces. If it is
in one piece, it waits for more, or ends the stream if there is no room for more. -/
theorem turns_applyRemedy {pipe after : Pipe τ} {capacity : Nat}
    (source : after.source = pipe.source) (serves : pipe.source.Serves F capacity)
    (incomplete : F.incomplete pipe.source.readable.toList) (events : List Event) :
    let advanced := (after.consume 0).applyRemedy events (.of false (!pipe.source.isContiguous)
      pipe.source.isFull (after.consume 0).source.canDefragment)
    ∃ outcome, advanced.outcome = .ok outcome ∧ pipe.Turns F [] [] advanced.pipe outcome := by
  have unchanged := consume_zero source serves.valid
  generalize after.consume 0 = rest at unchanged
  rw [← unchanged] at serves incomplete
  obtain ⟨same, piece⟩ := tidy_of_serves serves incomplete
  have tidies := tidies_tidy serves.valid
  have light : rest.tidy.1.source.weight = rest.source.used := by
    rw [Ring.weight_of_isContiguous piece, same]
  dsimp only
  rw [serves.canDefragment incomplete, ← unchanged]
  by_cases whole : rest.source.isContiguous
  · rw [Ring.toList_readable_of_isContiguous whole] at incomplete
    rw [whole]
    by_cases full : rest.source.isFull
    · rw [full]
      refine ⟨_, rfl, .starved incomplete ?_⟩
      change rest.source.capacity - rest.source.used = 0
      rw [beq_iff_eq.1 full, Nat.sub_self]
    · rw [Bool.eq_false_iff.2 full]
      refine ⟨_, rfl, .idle (fun _ _ => .inr ⟨?_, ?_⟩) ?_⟩
      · change F.incomplete rest.tidy.1.source.toList
        rw [tidies.content]
        exact incomplete
      · change rest.tidy.1.source.capacity - rest.tidy.1.source.used ≠ 0
        rw [tidies.size, same]
        have inside := serves.valid.used_le
        have room : rest.source.used ≠ rest.source.capacity := fun eq => full (beq_iff_eq.2 eq)
        omega
      · change rest.tidy.1.source.weight ≤ _
        rw [light, ← unchanged]
        exact rest.source.used_le_weight
  · rw [Bool.eq_false_iff.2 whole]
    refine ⟨_, rfl, .onward .nil ?_⟩
    change rest.tidy.1.source.weight < _
    rw [light, ← unchanged, Ring.weight, if_neg whole]
    exact Nat.lt_succ_self _

/-- A step that used nothing leaves the pipe quiet, or gives an incomplete unit what it asks for. -/
theorem turns_absorb_of_unused {pipe after : Pipe τ} {capacity : Nat}
    (source : after.source = pipe.source) (serves : pipe.source.Serves F capacity)
    (held : pipe.source.readable.toList ≠ []) {step : Step}
    (stops : F.Stops 0 [] pipe.source.readable.toList pipe.queue step) (events : List Event)
    (sane : ∀ cause, step ≠ .errored cause) :
    ∃ outcome, (after.absorb events step 0).outcome = .ok outcome ∧
      pipe.Turns F [] [] (after.absorb events step 0).pipe outcome := by
  have le : 0 ≤ after.source.readable.size := Nat.zero_le _
  cases step with
  | errored cause => exact (sane cause rfl).elim
  | done total =>
      obtain ⟨total_eq, stops⟩ := stops
      obtain rfl : total = 0 := total_eq
      obtain ⟨complete, waiting⟩ := stops held
      obtain ⟨later, eq⟩ := absorb_done le events 0
      rw [eq]
      have unchanged := consume_zero source serves.valid
      refine ⟨_, rfl, .idle (fun same _ => .inl ⟨?_, _, held, ?_, complete⟩) ?_⟩
      · rw [same]
        exact waiting rfl
      · rw [unchanged]
        exact Ring.readable_prefix _
      · exact Nat.le_of_eq (congrArg Ring.weight unchanged)
  | underflow total =>
      obtain ⟨total_eq, incomplete⟩ := stops
      obtain rfl : total = 0 := total_eq
      obtain ⟨later, eq⟩ := absorb_underflow le events 0
      rw [eq, source]
      exact turns_applyRemedy source serves incomplete later

/-- A call of the transform that keeps its promise is followed up. -/
theorem advance_of_called [Transform τ] (p : PipeId) {pipe : Pipe τ} {step : Step}
    (result : pipe.called.result = .ok step) :
    ∃ after events, after.source = pipe.source ∧ after.queue = pipe.called.output.queue ∧
      pipe.advance p =
      match step with
      | .errored cause => ⟨after, events, .ok (.error (.transform (some cause)))⟩
      | step => after.absorb events step pipe.called.output.emitted := by
  unfold advance
  dsimp only
  rw [← called.eq_def, result]
  let after : Pipe τ :=
    { pipe with
      transform := pipe.called.next
      queue := pipe.called.output.queue
      scratch := pipe.called.output.scratch }
  cases step <;> exact ⟨after, _, rfl, rfl, rfl⟩

/-- There is something to read for a pipe that is ready. -/
theorem readable_ne_nil {pipe : Pipe τ} (valid : pipe.source.Valid) (ready : pipe.isReady) :
    pipe.source.readable.toList ≠ [] := by
  intro none
  have nothing : pipe.source.usedToEnd = 0 := by
    rw [← Ring.length_readable valid, none]
    rfl
  have some := (Bool.and_eq_true_iff.1 ready).1
  rw [Ring.isEmpty, Ring.used_eq_zero_of_usedToEnd valid nothing] at some
  cases some

/-- Every advance of a pipe that is ready goes one of the four ways. -/
theorem turns_advance [Transform τ] [Transform.Proper τ] (p : PipeId) {pipe : Pipe τ}
    {capacity : Nat} (serves : pipe.source.Serves F capacity) (codes : F.Codes pipe.transform)
    (sound : pipe.queue.Sound) (ready : pipe.isReady) :
    ∃ used pushed outcome, (pipe.advance p).outcome = .ok outcome ∧
      pipe.Advances p used pushed (pipe.advance p) ∧
      (pipe.advance p).pipe.transform = pipe.transform ∧
      pipe.Turns F used pushed (pipe.advance p).pipe outcome := by
  have held := readable_ne_nil serves.valid ready
  have low : pipe.queue.bytes < pipe.options.ceiling :=
    of_decide_eq_true (Bool.and_eq_true_iff.1 ready).2
  obtain ⟨step, result, handled⟩ := codes.handles pipe.source.readable.toList
    (.new pipe.queue pipe.scratch pipe.options.ceiling) sound low
  obtain ⟨used, rest, pushed, input, translates, flatten, stops⟩ := handled.split
  have flatten : pipe.called.output.chunks.flatten = pushed := flatten
  have result : pipe.called.result = .ok step := result
  have same : (pipe.advance p).pipe.transform = pipe.transform := by
    obtain ⟨source, pending, _, eq⟩ := advance_eq p serves.valid
    rw [eq]
    exact codes.same _ _
  have advances {outcome : Except Error Bool} (done : (pipe.advance p).outcome = .ok outcome) :
      pipe.Advances p (step.used pipe.source.readable) pushed (pipe.advance p) := by
    obtain ⟨step', result', advances⟩ := advances_advance serves.valid sound done
    cases result.symm.trans result'
    rw [flatten] at advances
    exact advances
  obtain ⟨after, events, source, _, eq⟩ := advance_of_called p result
  -- A step that did not fail is followed up according to whether it used something.
  have absorbed (sane : ∀ cause, step ≠ .errored cause) (took : step.consumed = used.length)
      (eq : pipe.advance p = after.absorb events step pipe.called.output.emitted) :
      ∃ used pushed outcome, (pipe.advance p).outcome = .ok outcome ∧
        pipe.Advances p used pushed (pipe.advance p) ∧
        (pipe.advance p).pipe.transform = pipe.transform ∧
        pipe.Turns F used pushed (pipe.advance p).pipe outcome := by
    have taken : step.used pipe.source.readable = used := by
      rw [Step.used, took, input, List.take_left, if_pos]
      rw [← Block.length_toList, input, List.length_append]
      exact Nat.le_add_right _ _
    rw [taken] at advances
    have turns : ∃ outcome, (pipe.advance p).outcome = .ok outcome ∧
        pipe.Turns F used pushed (pipe.advance p).pipe outcome := by
      rw [eq]
      by_cases none : used = []
      · subst none
        obtain rfl := translates.eq_nil F.ne_nil_of_unit
        have nothing : pipe.called.output.emitted = 0 := by
          rw [← Output.length_chunks, flatten, List.length_nil]
        rw [List.nil_append] at input
        rw [← input] at stops
        rw [nothing]
        exact turns_absorb_of_unused source serves held stops events sane
      · exact turns_absorb_of_used source serves input none translates stops events _ sane
    obtain ⟨outcome, done, turns⟩ := turns
    exact ⟨used, pushed, outcome, done, advances done, same, turns⟩
  cases step with
  | errored cause =>
      have done : (pipe.advance p).outcome = .ok (.error (.transform (some cause))) := by rw [eq]
      have nothing := advances done
      rw [Step.used_errored] at nothing
      refine ⟨[], pushed, _, done, nothing, same, ?_⟩
      rw [eq]
      have content : after.source.toList = used ++ rest ++ pipe.source.spans.2.toList := by
        rw [source, ← input]
        rfl
      exact .refused content translates stops
  | done total =>
      refine absorbed ?_ (stops.1.trans (Nat.zero_add _)) eq
      rintro cause ⟨⟩
  | underflow total =>
      refine absorbed ?_ (stops.1.trans (Nat.zero_add _)) eq
      rintro cause ⟨⟩

end Pipe

end ByteFlow
