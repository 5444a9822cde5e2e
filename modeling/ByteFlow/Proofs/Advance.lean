/-
# What an advance does

One call of the transform takes bytes from the front of the source and puts bytes at the end of the
queue. Everything that happens around the call, such as moving the content of the source into one
piece for an incomplete unit, is bookkeeping, and so is what goes on record besides the call itself.
-/

import ByteFlow.Pipe.Run
import ByteFlow.Proofs.Ensures
import ByteFlow.Proofs.OutputUse

namespace ByteFlow

variable {τ : Type}

namespace Pipe

/-- The pipe that was left differs in its source only, and there only in where the content lies. -/
structure Tidies (pipe after : Pipe τ) : Prop where
  same : ∃ source, after = { pipe with source }
  valid : after.source.Valid
  content : after.source.toList = pipe.source.toList
  size : after.source.capacity = pipe.source.capacity
  region : after.source.region = pipe.source.region
  cleaned : after.source.cleaned = pipe.source.cleaned

theorem Tidies.refl {pipe : Pipe τ} (valid : pipe.source.Valid) : pipe.Tidies pipe :=
  ⟨⟨pipe.source, rfl⟩, valid, rfl, rfl, rfl, rfl⟩

/-- To move the content of a ring into one piece is to write it in another order, from the first
cell on. -/
theorem eq_of_defragment {r moved : Ring} (eq : r.defragment = .ok moved) :
    ∃ cells, moved = { r with cells, head := 0 } := by
  unfold Ring.defragment at eq
  split at eq
  · cases eq
  · split at eq
    · cases eq
      exact ⟨_, rfl⟩
    · cases eq

theorem tidies_tidy {pipe : Pipe τ} (valid : pipe.source.Valid) : pipe.Tidies pipe.tidy.1 := by
  unfold tidy
  split
  · rename_i source eq
    obtain ⟨cells, same⟩ := eq_of_defragment eq
    refine ⟨⟨source, rfl⟩, valid.defragment eq, Ring.toList_defragment valid eq, ?_, ?_, ?_⟩
    all_goals
      rw [same]
  · exact .refl valid

theorem report_of_mem_ofDefragment {r : Ring} {event : Event}
    (member : event ∈ Event.ofDefragment r) : event.IsReport := by
  unfold Event.ofDefragment at member
  split at member
  · cases List.mem_singleton.1 member
    trivial
  · cases member

theorem report_of_mem_tidy {pipe : Pipe τ} {event : Event} (member : event ∈ pipe.tidy.2) :
    event.IsReport := by
  unfold tidy at member
  split at member
  · exact report_of_mem_ofDefragment member
  · cases member

/-- How the follow-up on an incomplete unit ends: with the pipe tidied, notes on record, and no
claim of progress unless there was some or the unit is put together. -/
structure Remedied (pipe : Pipe τ) (events : List Event) (progress : Bool)
    (advanced : Advanced τ) : Prop where
  tidies : pipe.Tidies advanced.pipe
  notes : ∃ notes : List Event, advanced.events = notes ++ events ∧ ∀ event ∈ notes, event.IsNote
  idle : advanced.outcome = .ok (.ok false) → progress = false
  terminal : ∀ e, advanced.outcome = .ok (.error e) → e.kind.isTerminal

theorem remedied_applyRemedy {pipe : Pipe τ} (valid : pipe.source.Valid) (events : List Event)
    (progress wrapped full movable : Bool) :
    pipe.Remedied events progress
      (pipe.applyRemedy events (.of progress wrapped full movable)) := by
  have tidies := tidies_tidy valid
  have unmoved : ∀ event ∈ pipe.tidy.2, event.IsNote := fun _ member =>
    (report_of_mem_tidy member).isNote
  unfold Remedy.of
  split
  · exact ⟨tidies, ⟨_, rfl, unmoved⟩, nofun, nofun⟩
  · rename_i stuck
    have fatal : pipe.Remedied events progress ⟨pipe, events, .ok (.error .underflow)⟩ := by
      refine ⟨.refl valid, ⟨[], rfl, List.forall_mem_nil _⟩, nofun, ?_⟩
      rintro _ ⟨⟩
      rfl
    split
    · split
      · refine ⟨tidies, ⟨_, List.append_cons _ _ _, ?_⟩, nofun, nofun⟩
        intro event member
        rcases List.mem_append.1 member with tidied | moved
        · exact unmoved event tidied
        · cases List.mem_singleton.1 moved
          trivial
      · exact fatal
    · split
      · exact fatal
      · exact ⟨tidies, ⟨_, rfl, unmoved⟩, fun _ => Bool.eq_false_iff.2 stuck, nofun⟩

/-! ## The source -/

/-- What a step has used is the front of the source, and can be dropped there. -/
theorem toList_eq_used_append {r : Ring} (valid : r.Valid) {step : Step}
    (le : step.consumed ≤ r.readable.size) :
    step.consumed ≤ r.used ∧
      r.toList = step.used r.readable ++ (r.discard step.consumed).toList := by
  have content : r.toList = r.readable.toList ++ r.spans.2.toList := rfl
  have first : step.consumed ≤ r.readable.toList.length := le
  have inside : step.consumed ≤ r.used := by
    rw [← valid.length_toList, content, List.length_append]
    exact Nat.le_trans first (Nat.le_add_right _ _)
  have front : r.readable.toList.take step.consumed = r.toList.take step.consumed := by
    rw [content, List.take_append_of_le_length first]
  refine ⟨inside, ?_⟩
  rw [Ring.toList_discard valid inside, Step.used, if_pos le, front, List.take_append_drop]

/-- How the follow-up on a step ends: what the step has used left the source, and notes are on
record. -/
structure Absorbs (pipe : Pipe τ) (events : List Event) (step : Step) (emitted : Nat)
    (advanced : Advanced τ) : Prop where
  same : ∃ source pendingWritable, advanced.pipe = { pipe with source, pendingWritable }
  valid : advanced.pipe.source.Valid
  content : pipe.source.toList = step.used pipe.source.readable ++ advanced.pipe.source.toList
  size : advanced.pipe.source.capacity = pipe.source.capacity
  region : advanced.pipe.source.region = pipe.source.region
  cleaned : advanced.pipe.source.cleaned = pipe.source.cleaned
  notes : ∃ notes : List Event, advanced.events = notes ++ events ∧ ∀ event ∈ notes, event.IsNote
  idle : advanced.outcome = .ok (.ok false) → emitted = 0
  terminal : ∀ e, advanced.outcome = .ok (.error e) → e.kind.isTerminal

theorem absorbs_absorb {pipe : Pipe τ} (valid : pipe.source.Valid) (events : List Event)
    (step : Step) (emitted : Nat) :
    pipe.Absorbs events step emitted (pipe.absorb events step emitted) := by
  unfold absorb
  dsimp only
  split
  · rename_i excess
    refine ⟨⟨_, _, rfl⟩, valid, ?_, rfl, rfl, rfl, ⟨[], rfl, List.forall_mem_nil _⟩, nofun, ?_⟩
    · rw [Step.used, if_neg (Nat.not_le.2 excess)]
      rfl
    · rintro _ ⟨⟩
      rfl
  · rename_i le
    obtain ⟨inside, content⟩ := toList_eq_used_append valid (Nat.not_lt.1 le)
    have rest_valid : (pipe.consume step.consumed).source.Valid := valid.discard inside
    have still : (decide (0 < step.consumed) || decide (0 < emitted)) = false → emitted = 0 := by
      intro none
      exact Nat.eq_zero_of_not_pos (of_decide_eq_false (Bool.or_eq_false_iff.1 none).2)
    have note (n m : Nat) : ∀ event ∈ [Event.logged (.transformed pipe.direction n m)],
        event.IsNote := by
      intro event member
      cases List.mem_singleton.1 member
      trivial
    split
    · obtain ⟨⟨⟨source, same⟩, tidy_valid, tidied, size, region, cleaned⟩, ⟨notes, eq, all⟩, idle,
        terminal⟩ :=
        remedied_applyRemedy rest_valid
          (.logged (.transformed pipe.direction step.consumed emitted) :: events)
          (decide (0 < step.consumed) || decide (0 < emitted)) (!pipe.source.isContiguous)
          pipe.source.isFull (pipe.consume step.consumed).source.canDefragment
      refine ⟨⟨source, _, same⟩, tidy_valid, ?_, size, region, cleaned,
        ⟨notes ++ [.logged (.transformed pipe.direction step.consumed emitted)], ?_, ?_⟩,
        fun h => still (idle h), terminal⟩
      · rw [tidied]
        exact content
      · rw [eq]
        exact List.append_cons _ _ _
      · intro event member
        rcases List.mem_append.1 member with late | called
        · exact all event late
        · exact note _ _ event called
    · refine ⟨⟨_, _, rfl⟩, rest_valid, content, rfl, rfl, rfl, ⟨_, rfl, note _ _⟩, ?_, nofun⟩
      intro idle
      injection idle with idle
      injection idle with idle
      exact still idle

/-! ## The whole advance -/

/-- The call of the transform that an advance makes. -/
def called [Transform τ] (pipe : Pipe τ) : Transformed τ :=
  Transform.call pipe.transform pipe.source.readable.toList
    (.new pipe.queue pipe.scratch pipe.options.ceiling)

/-- Also when the transform breaks a promise, the pipe has what the transform has become and what it
made of its output. -/
theorem advance_eq [Transform τ] (p : PipeId) {pipe : Pipe τ} (valid : pipe.source.Valid) :
    ∃ source pendingWritable, Ring.Valid source ∧
      (pipe.advance p).pipe =
        { pipe with
          source
          pendingWritable
          transform := pipe.called.next
          queue := pipe.called.output.queue
          scratch := pipe.called.output.scratch } := by
  let after : Pipe τ :=
    { pipe with
      transform := pipe.called.next
      queue := pipe.called.output.queue
      scratch := pipe.called.output.scratch }
  have absorbed (events : List Event) (step : Step) (emitted : Nat) :
      ∃ source pendingWritable, Ring.Valid source ∧
        (after.absorb events step emitted).pipe = { after with source, pendingWritable } := by
    have after_valid : after.source.Valid := valid
    obtain ⟨⟨source, pending, same⟩, source_valid, _⟩ :=
      absorbs_absorb after_valid events step emitted
    refine ⟨source, pending, ?_, same⟩
    rw [same] at source_valid
    exact source_valid
  dsimp only [advance]
  rw [← called.eq_def]
  cases pipe.called.result with
  | error misuse => exact ⟨_, _, valid, rfl⟩
  | ok step =>
      cases step with
      | errored cause => exact ⟨_, _, valid, rfl⟩
      | done consumed => exact absorbed _ _ _
      | underflow consumed => exact absorbed _ _ _

/-- Whatever state the pipe is in, an advance changes only what its run looks at, and does not give
back the memory of the source. -/
theorem advance_same [Transform τ] (p : PipeId) (pipe : Pipe τ) :
    ∃ source transform queue scratch pendingWritable,
      (pipe.advance p).pipe = { pipe with source, transform, queue, scratch, pendingWritable } ∧
        source.cleaned = pipe.source.cleaned := by
  let after : Pipe τ :=
    { pipe with
      transform := pipe.called.next
      queue := pipe.called.output.queue
      scratch := pipe.called.output.scratch }
  have tidied (rest : Pipe τ) : ∃ source, rest.tidy.1 = { rest with source } ∧
      source.cleaned = rest.source.cleaned := by
    unfold tidy
    split
    · rename_i source moved
      obtain ⟨cells, same⟩ := eq_of_defragment moved
      exact ⟨source, rfl, by rw [same]⟩
    · exact ⟨rest.source, rfl, rfl⟩
  have absorbed (events : List Event) (step : Step) (emitted : Nat) :
      ∃ source pendingWritable,
        (after.absorb events step emitted).pipe = { after with source, pendingWritable } ∧
          source.cleaned = pipe.source.cleaned := by
    unfold absorb
    dsimp only
    split
    · exact ⟨_, _, rfl, rfl⟩
    · split
      · obtain ⟨source, same, cleaned⟩ := tidied (after.consume step.consumed)
        unfold applyRemedy
        split
        · exact ⟨source, _, same, cleaned⟩
        · exact ⟨source, _, same, cleaned⟩
        · exact ⟨source, _, same, cleaned⟩
        · exact ⟨_, _, rfl, rfl⟩
      · exact ⟨_, _, rfl, rfl⟩
  dsimp only [advance]
  rw [← called.eq_def]
  cases pipe.called.result with
  | error misuse => exact ⟨_, _, _, _, _, rfl, rfl⟩
  | ok step =>
      cases step with
      | errored cause => exact ⟨_, _, _, _, _, rfl, rfl⟩
      | done consumed =>
          obtain ⟨source, pending, same, cleaned⟩ := absorbed _ (.done consumed) _
          exact ⟨source, _, _, _, pending, same, cleaned⟩
      | underflow consumed =>
          obtain ⟨source, pending, same, cleaned⟩ := absorbed _ (.underflow consumed) _
          exact ⟨source, _, _, _, pending, same, cleaned⟩

/-! ## The record of an advance -/

/-- All that the follow-up on a step adds to the record are reports. -/
theorem events_absorb (pipe : Pipe τ) (events : List Event) (step : Step) (emitted : Nat) :
    ∃ reports, (pipe.absorb events step emitted).events = reports ++ events ∧
      ∀ event ∈ reports, event.IsReport := by
  have told (entry : LogRecord) : ∀ event ∈ [Event.logged entry], event.IsReport := by
    intro event member
    cases List.mem_singleton.1 member
    trivial
  have tidied (reports : List Event) (all : ∀ event ∈ reports, event.IsReport) (rest : Pipe τ) :
      ∃ more, rest.tidy.2 ++ (reports ++ events) = more ++ events ∧
        ∀ event ∈ more, event.IsReport :=
    ⟨rest.tidy.2 ++ reports, (List.append_assoc _ _ _).symm,
      List.forall_mem_append.2 ⟨fun _ => report_of_mem_tidy, all⟩⟩
  unfold absorb
  dsimp only
  split
  · exact ⟨[], rfl, List.forall_mem_nil _⟩
  · split
    · unfold applyRemedy
      split
      · exact tidied [_] (told _) _
      · have unwrapped (entry entry' : LogRecord) :
            ∀ event ∈ [Event.logged entry, .logged entry'], event.IsReport :=
          List.forall_mem_cons.2 ⟨trivial, told entry'⟩
        exact tidied [_, _] (unwrapped _ _) _
      · exact tidied [_] (told _) _
      · exact ⟨[_], rfl, told _⟩
    · exact ⟨[_], rfl, told _⟩

/-- The event is the call of the transform that an advance of the pipe makes. -/
inductive Calls [Transform τ] (p : PipeId) (pipe : Pipe τ) : Event → Prop where
  | transformed (step : Step) : Calls p pipe (.transformed p pipe.source.readable
      (pipe.options.ceiling - pipe.queue.bytes) step pipe.called.output.chunks
      pipe.called.output.headroom)
  | stopped : Calls p pipe (.stopped p pipe.source.readable
      (pipe.options.ceiling - pipe.queue.bytes) pipe.called.output.chunks)

/-- An advance puts on record one call of the transform, after what the transform has put there, and
then reports. -/
theorem events_advance [Transform τ] (p : PipeId) (pipe : Pipe τ) :
    ∃ reports call, (pipe.advance p).events = reports ++ call :: pipe.called.output.events ∧
      (∀ event ∈ reports, event.IsReport) ∧ pipe.Calls p call := by
  dsimp only [advance]
  rw [← called.eq_def]
  cases pipe.called.result with
  | error misuse => exact ⟨[], _, rfl, List.forall_mem_nil _, .stopped⟩
  | ok step =>
      cases step with
      | errored cause => exact ⟨[], _, rfl, List.forall_mem_nil _, .transformed _⟩
      | done consumed =>
          obtain ⟨reports, same, all⟩ := events_absorb _ _ _ _
          exact ⟨reports, _, same, all, .transformed _⟩
      | underflow consumed =>
          obtain ⟨reports, same, all⟩ := events_absorb _ _ _ _
          exact ⟨reports, _, same, all, .transformed _⟩

theorem Calls.isCallOf [Transform τ] {p : PipeId} {pipe : Pipe τ} {event : Event}
    (calls : pipe.Calls p event) : event.IsCallOf p := by
  cases calls <;> rfl

/-- What an advance puts on record is the call, or a report, or what the transform has put there. -/
theorem mem_events_advance [Transform τ] {p : PipeId} {pipe : Pipe τ} {event : Event}
    (member : event ∈ (pipe.advance p).events) :
    event.IsReport ∨ event ∈ pipe.called.output.events ∨ event.IsCallOf p := by
  obtain ⟨reports, call, same, all, calls⟩ := events_advance p pipe
  rw [same] at member
  rcases List.mem_append.1 member with report | member
  · exact .inl (all event report)
  · rcases List.mem_cons.1 member with rfl | noted
    · exact .inr (.inr calls.isCallOf)
    · exact .inr (.inl noted)

theorem notes_of_called [Transform τ] [Transform.Proper τ] (pipe : Pipe τ) :
    ∀ event ∈ pipe.called.output.events, event.IsNote :=
  (Transform.Proper.uses pipe.transform pipe.source.readable.toList
    (Output.new pipe.queue pipe.scratch pipe.options.ceiling)).notes (List.forall_mem_nil _)

/-- An advance of a candid transform puts on record one call, and reports. -/
theorem report_or_call_of_mem_advance [Transform τ] [Transform.Candid τ] {p : PipeId}
    {pipe : Pipe τ} {event : Event} (member : event ∈ (pipe.advance p).events) :
    event.IsReport ∨ event.IsCallOf p := by
  have reports := (Transform.Candid.uses pipe.transform pipe.source.readable.toList
    (Output.new pipe.queue pipe.scratch pipe.options.ceiling)).reports (List.forall_mem_nil _)
  rcases mem_events_advance member with report | noted | call
  · exact .inl report
  · exact .inl (reports event noted)
  · exact .inr call

/-! ## The books of an advance -/

/-- An advance took `used` from the source and put `pushed` into the queue, and the ledger of the
pipe says so. Nothing else about the pipe has changed that anyone but its own run looks at. -/
structure Advances (p : PipeId) (pipe : Pipe τ) (used pushed : Bytes) (advanced : Advanced τ) :
    Prop where
  same : ∃ source transform queue scratch pendingWritable, advanced.pipe =
    { pipe with source, transform, queue, scratch, pendingWritable }
  valid : advanced.pipe.source.Valid
  content : pipe.source.toList = used ++ advanced.pipe.source.toList
  size : advanced.pipe.source.capacity = pipe.source.capacity
  region : advanced.pipe.source.region = pipe.source.region
  cleaned : advanced.pipe.source.cleaned = pipe.source.cleaned
  sound : advanced.pipe.queue.Sound
  waiting : advanced.pipe.queue.toList = pipe.queue.toList ++ pushed
  ledger : ∀ journal, Ledger.of p (advanced.events ++ journal) =
    { Ledger.of p journal with
      consumed := (Ledger.of p journal).consumed ++ used
      pushed := (Ledger.of p journal).pushed ++ pushed }
  elsewhere : ∀ q, p ≠ q → ∀ journal,
    Ledger.of q (advanced.events ++ journal) = Ledger.of q journal
  idle : advanced.outcome = .ok (.ok false) → advanced.pipe.queue = pipe.queue
  terminal : ∀ e, advanced.outcome = .ok (.error e) → e.kind.isTerminal

/-- The ledger has a call once, whatever notes there are around it. -/
theorem ledger_call {p : PipeId} {input : Block} {headroom left : Nat} {step : Step}
    {chunks : List Bytes} {later earlier : List Event} (notes_later : ∀ event ∈ later, event.IsNote)
    (notes_earlier : ∀ event ∈ earlier, event.IsNote) (journal : List Event) :
    Ledger.of p ((later ++ .transformed p input headroom step chunks left :: earlier) ++ journal) =
      { Ledger.of p journal with
        consumed := (Ledger.of p journal).consumed ++ step.used input
        pushed := (Ledger.of p journal).pushed ++ chunks.flatten } := by
  rw [List.append_assoc, Ledger.of_notes notes_later, List.cons_append, Ledger.of_transformed,
    Ledger.of_notes notes_earlier]

/-- The ledgers of other pipes do not have the call. -/
theorem ledger_call_elsewhere {p q : PipeId} (other : p ≠ q) {input : Block} {headroom left : Nat}
    {step : Step} {chunks : List Bytes} {later earlier : List Event}
    (notes_later : ∀ event ∈ later, event.IsNote)
    (notes_earlier : ∀ event ∈ earlier, event.IsNote) (journal : List Event) :
    Ledger.of q ((later ++ .transformed p input headroom step chunks left :: earlier) ++ journal) =
      Ledger.of q journal := by
  rw [List.append_assoc, Ledger.of_notes notes_later, List.cons_append,
    Ledger.of_transformed_elsewhere other, Ledger.of_notes notes_earlier]

/-- An advance does what it should, unless the transform broke a promise. -/
theorem advances_advance [Transform τ] [Transform.Proper τ] {p : PipeId} {pipe : Pipe τ}
    (valid : pipe.source.Valid) (sound : pipe.queue.Sound) {outcome : Except Error Bool}
    (done : (pipe.advance p).outcome = .ok outcome) :
    ∃ step, pipe.called.result = .ok step ∧
      pipe.Advances p (step.used pipe.source.readable) pipe.called.output.chunks.flatten
        (pipe.advance p) := by
  have uses := Transform.Proper.uses pipe.transform pipe.source.readable.toList
    (Output.new pipe.queue pipe.scratch pipe.options.ceiling)
  dsimp only [advance, called] at done ⊢
  generalize Transform.call pipe.transform pipe.source.readable.toList
    (Output.new pipe.queue pipe.scratch pipe.options.ceiling) = called at uses done ⊢
  obtain ⟨transform, output, result⟩ := called
  have earlier := uses.notes (List.forall_mem_nil _)
  cases result with
  | error misuse => cases done
  | ok step =>
      have idle : output.emitted = 0 → output.queue = pipe.queue := by
        intro none
        apply uses.emitted_pos.resolve_left
        rw [none]
        exact Nat.lt_irrefl 0
      have follow (advanced : Advanced τ) (events : List Event)
          (booked : events = .transformed p pipe.source.readable
            (Output.new pipe.queue pipe.scratch pipe.options.ceiling).headroom step output.chunks
            output.headroom :: output.events)
          (h : Absorbs { pipe with transform, queue := output.queue, scratch := output.scratch }
            events step output.emitted advanced) :
          pipe.Advances p (step.used pipe.source.readable) output.chunks.flatten advanced := by
        obtain ⟨⟨source, pending, same⟩, h_valid, content, size, region, cleaned,
          ⟨notes, eq, all⟩, h_idle, terminal⟩ := h
        refine ⟨⟨_, _, _, _, _, same⟩, h_valid, content, size, region, cleaned, ?_, ?_, ?_, ?_, ?_,
          terminal⟩
        · rw [same]
          exact uses.sound sound
        · rw [same]
          exact uses.toList_queue
        · rw [eq, booked]
          exact ledger_call all earlier
        · intro q other
          rw [eq, booked]
          exact ledger_call_elsewhere other all earlier
        · intro none
          rw [same]
          exact idle (h_idle none)
      refine ⟨step, rfl, ?_⟩
      cases step with
      | errored cause =>
          dsimp only
          refine follow _ _ rfl
            ⟨⟨_, _, rfl⟩, valid, ?_, rfl, rfl, rfl, ⟨[], rfl, List.forall_mem_nil _⟩, nofun, ?_⟩
          · change _ = (Step.errored cause).used _ ++ pipe.source.toList
            rw [Step.used_errored]
            rfl
          · rintro _ ⟨⟩
            rfl
      | done consumed =>
          dsimp only
          refine follow _ _ rfl (absorbs_absorb ?_ _ _ _)
          exact valid
      | underflow consumed =>
          dsimp only
          refine follow _ _ rfl (absorbs_absorb ?_ _ _ _)
          exact valid

/-- What a call of the transform ensures, if an advance leads there and nothing is lost without one.
A broken promise of the transform halts the run. -/
theorem ensures_transformOnce {ω : Type} [Inhabited τ] [Transform τ] [Transform.Proper τ]
    {p : PipeId} {w : World τ ω} {post : Except Error Bool → World τ ω → Prop}
    (valid : (w.pipes.get p).source.Valid) (sound : (w.pipes.get p).queue.Sound)
    (advances : ∀ answer used pushed,
      (w.pipes.get p).Advances p used pushed ((w.pipes.get p).advance p) →
      ((w.pipes.get p).advance p).outcome = .ok answer →
      post answer { w with
        pipes := w.pipes.set p ((w.pipes.get p).advance p).pipe
        journal := ((w.pipes.get p).advance p).events ++ w.journal })
    (waits : post (.ok false) w) :
    Machine.Ensures (· = w) (transformOnce p) post := by
  refine .at_getPipe ?_
  split
  · refine .at_modifyPipe (.at_recordAll ?_)
    apply Machine.ensures_insist
    intro answer done
    rintro _ rfl
    obtain ⟨step, _, h⟩ := advances_advance valid sound done
    exact advances answer _ _ h done
  · apply Machine.ensures_pure
    rintro _ rfl
    exact waits

end Pipe

end ByteFlow
