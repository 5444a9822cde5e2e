/-
# The course of a coded stream

A pipe whose transform codes a format, with a source that serves it, takes its stream from the
source to the destination. `Course` has what is fixed about such a pipe; `Course.Holds` is what is
true of the pipe, its destination and its books from call to call. A drain moves bytes from the
queue into the destination, where they may be taken at once, and a call of the transform goes one of
the ways that `Course.Turned` names; the books stay true in either case.
-/

import ByteFlow.Proofs.Passive
import ByteFlow.Proofs.Stranding
import ByteFlow.Proofs.Turning
import ByteFlow.Proofs.Words

namespace ByteFlow

open Machine

variable {τ ω : Type}

/-! ## Where a pipe stands -/

/-- How far a pipe has come that has consumed some bytes and pushed others, with `content` in a
source of that capacity, by how it has failed. A transform that rejects a unit may have pushed units
before it that do not count as consumed. -/
def Format.Standing (F : Format) (room : Nat) (consumed content pushed : Bytes) :
    Option ErrorKind → Prop
  | none => Translates (F.Within room) consumed pushed
  | some .underflow =>
    Translates (F.Within room) consumed pushed ∧ F.incomplete content ∧ content.length = room
  | some .transform =>
    ∃ used rest more cause, content = used ++ rest ++ more ∧
      Translates (F.Within room) (consumed ++ used) pushed ∧ F.rejected rest cause
  | some _ => False

namespace Format.Standing

variable {F : Format} {word : Bytes → Bytes → Prop} {room : Nat}
  {consumed content more pushed data : Bytes} {failure : Option ErrorKind}

/-- What was pushed is the translation of a first part of what came in. -/
theorem split (h : F.Standing room consumed content pushed failure) :
    ∃ used rest, content = used ++ rest ∧ Translates (F.Within room) (consumed ++ used) pushed := by
  have plain (translates : Translates (F.Within room) consumed pushed) :
      ∃ used rest, content = used ++ rest ∧
        Translates (F.Within room) (consumed ++ used) pushed :=
    ⟨[], content, rfl, (List.append_nil consumed).symm ▸ translates⟩
  cases failure with
  | none => exact plain h
  | some kind =>
      cases kind with
      | underflow => exact plain h.1
      | transform =>
          obtain ⟨used, rest, more, _, content, translates, _⟩ := h
          exact ⟨used, rest ++ more, content.trans (List.append_assoc _ _ _), translates⟩
      | _ => exact h.elim

/-- A pipe has not failed if nothing is incomplete or malformed to it. -/
theorem intact_of_total (complete : ∀ rest, ¬F.incomplete rest)
    (accepted : ∀ rest cause, ¬F.rejected rest cause)
    (h : F.Standing room consumed content pushed failure) :
    failure = none ∧ Translates F.unit consumed pushed := by
  cases failure with
  | none =>
      have within : Translates (F.Within room) consumed pushed := h
      exact ⟨rfl, within.imp fun _ _ _ within => within.1⟩
  | some kind =>
      cases kind with
      | underflow => exact (complete _ h.2.1).elim
      | transform =>
          obtain ⟨_, rest, _, cause, _, _, rejected⟩ := h
          exact (accepted rest cause rejected).elim
      | _ => exact h.elim

/-- A pipe that was given words only has not rejected anything. It has failed if an incomplete unit
fills the source. -/
theorem of_words (clear : F.Clear) (spells : F.Spells word)
    (whole : Translates word (consumed ++ content ++ more) data)
    (h : F.Standing room consumed content pushed failure) :
    Translates (F.Within room) consumed pushed ∧
      (failure = none ∨
        failure = some .underflow ∧ F.incomplete content ∧ content.length = room) := by
  cases failure with
  | none => exact ⟨h, .inl rfl⟩
  | some kind =>
      cases kind with
      | underflow => exact ⟨h.1, .inr ⟨rfl, h.2⟩⟩
      | transform =>
          obtain ⟨used, rest, behind, cause, rfl, translates, rejected⟩ := h
          rw [List.append_assoc used, ← List.append_assoc, List.append_assoc (consumed ++ used),
            List.append_assoc rest] at whole
          obtain ⟨_, _, others⟩ :=
            clear.rest_of_words (fun within => within.1) spells translates whole
          exact (spells.not_rejected clear others cause rejected).elim
      | _ => exact h.elim

/-- A pipe that was given only words that fit into its source has not failed. -/
theorem intact_of_words (clear : F.Clear) (spells : F.Spells word)
    (fits : ∀ {used pushed}, word used pushed → used.length ≤ room) (some : 0 < room)
    (whole : Translates word (consumed ++ content ++ more) data)
    (h : F.Standing room consumed content pushed failure) : failure = none := by
  obtain ⟨translates, intact | ⟨_, incomplete, full⟩⟩ := h.of_words clear spells whole
  · exact intact
  · rw [List.append_assoc] at whole
    obtain ⟨_, _, others⟩ := clear.rest_of_words (fun within => within.1) spells translates whole
    have held : content ≠ [] := List.ne_nil_of_length_pos (full ▸ some)
    obtain ⟨used, _, rest, word, rfl, missing⟩ :=
      spells.lt_of_incomplete clear others held incomplete
    have le := fits word
    have lacks := List.length_pos_iff.2 missing
    rw [List.length_append] at le
    omega

end Format.Standing

/-- The books once bytes were taken from the destination. -/
def Ledger.accept (ledger : Ledger) (gone : Bytes) : Ledger :=
  { ledger with accepted := ledger.accepted ++ gone }

theorem Ledger.accept_nil (ledger : Ledger) : ledger.accept [] = ledger :=
  congrArg (fun accepted => { ledger with accepted }) (List.append_nil _)

theorem Ledger.accept_append (ledger : Ledger) (gone more : Bytes) :
    ledger.accept (gone ++ more) = (ledger.accept gone).accept more :=
  congrArg (fun accepted => { ledger with accepted }) (List.append_assoc _ _ _).symm

/-- What is fixed about a pipe with a coded stream. -/
structure Course (τ : Type) where
  format : Format
  transform : τ
  destination : RingId
  ceiling : Nat
  /-- The capacity of the source. -/
  room : Nat
  /-- The capacity of the destination. -/
  size : Nat
  /-- What the destination held when it became the destination. -/
  held : Bytes
  /-- Those who are told of the edges of the pipe. -/
  handlers : List HandlerId

namespace Course

/-- The pipe is on its course. It has received the bytes `got`, and `gave` was taken from its
destination. -/
structure Holds (c : Course τ) (got gave : Bytes) (pipe : Pipe τ) (ring : Ring) (ledger : Ledger) :
    Prop where
  transform : pipe.transform = c.transform
  ceiling : pipe.options.ceiling = c.ceiling
  destination : pipe.destination = c.destination
  alive : pipe.held = true
  handlers : pipe.handlers = c.handlers
  source : pipe.source.Serves c.format c.room
  queue : pipe.queue.Sound
  usable : ring.Valid ∧ ring.cleaned = false
  size : ring.capacity = c.size
  current : ledger.current? = some c.destination
  received : ledger.received = got
  accepted : ledger.accepted = gave
  inbound : ledger.consumed ++ pipe.source.toList = got
  outbound : gave ++ ring.toList ++ pipe.queue.toList = c.held ++ ledger.pushed
  standing :
    c.format.Standing c.room ledger.consumed pipe.source.toList ledger.pushed pipe.failure

/-- A run of the pipe is in progress. -/
structure Runs (c : Course τ) (got gave : Bytes) (pipe : Pipe τ) (ring : Ring) (ledger : Ledger) :
    Prop extends c.Holds got gave pipe ring ledger where
  operating : pipe.operating = true
  intact : pipe.failure = none

/-- The pipe is at work on its destination. -/
structure Works (c : Course τ) (pipe : Pipe τ) (ring : Ring) (ledger : Ledger) : Prop where
  operating : pipe.operating = true
  alive : pipe.held = true
  handlers : pipe.handlers = c.handlers
  destination : pipe.destination = c.destination
  usable : ring.Valid ∧ ring.cleaned = false
  size : ring.capacity = c.size
  current : ledger.current? = some c.destination

/-- A run of the pipe is in progress, and is about to fail. -/
structure Breaks (c : Course τ) (got gave : Bytes) (e : Error) (pipe : Pipe τ) (ring : Ring)
    (ledger : Ledger) : Prop where
  holds : c.Holds got gave { pipe with failure := some e.kind } ring ledger
  terminal : e.kind.isTerminal = true

variable {c : Course τ} {got gave : Bytes} {pipe : Pipe τ} {ring : Ring} {ledger : Ledger}

namespace Holds

/-- A run and the number of calls make no difference. -/
theorem of_same (h : c.Holds got gave pipe ring ledger) (operating pending : Bool) (calls : Nat) :
    c.Holds got gave { pipe with operating, pendingWritable := pending, calls } ring ledger :=
  ⟨h.transform, h.ceiling, h.destination, h.alive, h.handlers, h.source, h.queue, h.usable,
    h.size, h.current, h.received, h.accepted, h.inbound, h.outbound, h.standing⟩

theorem weight_le (h : c.Holds got gave pipe ring ledger) :
    pipe.source.weight ≤ c.room + 1 := by
  have inside := h.source.valid.used_le
  have room := h.source.size
  unfold Ring.weight
  split <;> omega

/-- The transform may be called if there is input and the queue is below the ceiling. -/
theorem isReady (h : c.Holds got gave pipe ring ledger) (held : pipe.source.toList ≠ [])
    (low : pipe.queue.bytes < c.ceiling) : pipe.isReady := by
  rw [Pipe.isReady, h.ceiling, decide_eq_true low, Bool.and_true, Bool.not_eq_true',
    Bool.eq_false_iff]
  exact fun empty => held ((Ring.toList_eq_nil_iff h.source.valid).2 empty)

end Holds

theorem Runs.works (h : c.Runs got gave pipe ring ledger) : c.Works pipe ring ledger :=
  ⟨h.operating, h.alive, h.handlers, h.destination, h.usable, h.size, h.current⟩

/-- What passes through the destination, and what happens to the queue, make no difference. -/
theorem Works.passes (h : c.Works pipe ring ledger) {moved gone : Bytes} {ring' : Ring}
    (passes : ring.Passes moved gone ring') (queue : Queue) (pendingWritable : Bool) :
    c.Works { pipe with queue, pendingWritable } ring' (ledger.accept gone) :=
  ⟨h.operating, h.alive, h.handlers, h.destination,
    ⟨passes.valid, passes.cleaned.trans h.usable.2⟩, passes.capacity.trans h.size, h.current⟩

end Course

/-! ## Draining -/

/-- The bytes `moved` have gone from the front of the queue into the destination, and the bytes
`gone` were taken from there. -/
structure Pipe.Lands (pipe : Pipe τ) (ring : Ring) (moved gone : Bytes) (after : Pipe τ)
    (ring' : Ring) : Prop where
  same : ∃ queue pendingWritable, after = { pipe with queue, pendingWritable }
  sound : after.queue.Sound
  content : pipe.queue.toList = moved ++ after.queue.toList
  passes : ring.Passes moved gone ring'

namespace Pipe.Lands

variable {pipe after : Pipe τ} {ring ring' : Ring} {moved gone : Bytes}

theorem refl (sound : pipe.queue.Sound) (valid : ring.Valid) : pipe.Lands ring [] [] pipe ring :=
  ⟨⟨pipe.queue, pipe.pendingWritable, rfl⟩, sound, rfl, .refl valid⟩

theorem trans (h : pipe.Lands ring moved gone after ring') {moved' gone' : Bytes} {last : Pipe τ}
    {ring'' : Ring} (h' : after.Lands ring' moved' gone' last ring'') :
    pipe.Lands ring (moved ++ moved') (gone ++ gone') last ring'' where
  same := by
    obtain ⟨queue, pending, rfl⟩ := h.same
    obtain ⟨queue', pending', rfl⟩ := h'.same
    exact ⟨queue', pending', rfl⟩
  sound := h'.sound
  content := by rw [h.content, h'.content, List.append_assoc]
  passes := h.passes.trans h'.passes

theorem bytes_eq (h : pipe.Lands ring moved gone after ring') (sound : pipe.queue.Sound) :
    pipe.queue.bytes = moved.length + after.queue.bytes := by
  rw [sound.bytes_eq, h.sound.bytes_eq, h.content, List.length_append]

/-- What a segment leaves in front of the queue is what did not land. -/
theorem of_popFront (sound : pipe.queue.Sound) {segment : Ring} {rest : Queue}
    (popped : pipe.queue.popFront = some (segment, rest)) {left : Ring}
    (drains : segment.Drains moved left) (whole : left.isContiguous)
    (passes : ring.Passes moved gone ring') (pendingWritable : Bool) :
    pipe.Lands ring moved gone { pipe with queue := rest.pushFront left, pendingWritable }
      ring' := by
  obtain ⟨_, piece, rest_sound⟩ := sound.popFront popped
  refine ⟨⟨_, _, rfl⟩, ?_, ?_, passes⟩
  · exact rest_sound.pushFront drains.valid ⟨whole, drains.cleaned.trans piece.2⟩
  · change _ = moved ++ (rest.pushFront left).toList
    rw [Queue.toList_popFront popped, Queue.toList_pushFront _ drains.valid, drains.content,
      List.append_assoc]

end Pipe.Lands

/-! ## Steps -/

namespace Course

variable {p : PipeId} {d : RingId} {before : Scene τ ω} {c : Course τ}
  {got gave : Bytes} {pipe : Pipe τ} {ring : Ring} {ledger : Ledger}

theorem Runs.lands (h : c.Runs got gave pipe ring ledger) {moved gone : Bytes} {after : Pipe τ}
    {ring' : Ring} (lands : pipe.Lands ring moved gone after ring') :
    c.Runs got (gave ++ gone) after ring' (ledger.accept gone) ∧ after.source = pipe.source := by
  obtain ⟨queue, pending, rfl⟩ := lands.same
  have passes := lands.passes
  refine ⟨⟨⟨h.transform, h.ceiling, h.destination, h.alive, h.handlers, h.source, lands.sound,
    ⟨passes.valid, passes.cleaned.trans h.usable.2⟩, passes.capacity.trans h.size, h.current,
    h.received, congrArg (· ++ gone) h.accepted, h.inbound, ?_, h.standing⟩, h.operating,
    h.intact⟩, rfl⟩
  rw [List.append_assoc gave, ← passes.content, List.append_assoc, List.append_assoc,
    ← lands.content, ← List.append_assoc]
  exact h.outbound

/-- The books after an advance, by how the pipe stands then. -/
theorem Runs.advance (h : c.Runs got gave pipe ring ledger) {used pushed : Bytes}
    {advanced : Advanced τ} (advances : pipe.Advances p used pushed advanced)
    (same : advanced.pipe.transform = pipe.transform) {failure : Option ErrorKind}
    (standing : c.format.Standing c.room (ledger.consumed ++ used) advanced.pipe.source.toList
      (ledger.pushed ++ pushed) failure) :
    c.Holds got gave { advanced.pipe with failure } ring
      { ledger with
        consumed := ledger.consumed ++ used
        pushed := ledger.pushed ++ pushed } := by
  have serves : advanced.pipe.source.Serves c.format c.room :=
    ⟨advances.valid, advances.cleaned.trans h.source.intact,
      fun incomplete => advances.region.trans (h.source.movable incomplete),
      advances.size.trans h.source.size⟩
  have content := advances.content
  have sound := advances.sound
  have waiting := advances.waiting
  obtain ⟨source, transform, queue, scratch, pending, eq⟩ := advances.same
  rw [eq] at serves content sound waiting same standing ⊢
  refine ⟨same.trans h.transform, h.ceiling, h.destination, h.alive, h.handlers, serves, sound,
    h.usable, h.size, h.current, h.received, h.accepted, ?_, ?_, standing⟩
  · change ledger.consumed ++ used ++ source.toList = got
    rw [List.append_assoc, ← content]
    exact h.inbound
  · change gave ++ ring.toList ++ queue.toList = c.held ++ (ledger.pushed ++ pushed)
    rw [waiting, ← List.append_assoc, h.outbound, List.append_assoc]

/-- Bytes come into the source. -/
theorem Holds.receive (h : c.Holds got gave pipe ring ledger) (intact : pipe.failure = none)
    {moved : Bytes} {source : Ring} (fills : pipe.source.Fills moved source) :
    c.Holds (got ++ moved) gave { pipe with source } ring
      { ledger with received := ledger.received ++ moved } where
  transform := h.transform
  ceiling := h.ceiling
  destination := h.destination
  alive := h.alive
  handlers := h.handlers
  source := ⟨fills.valid, fills.cleaned.trans h.source.intact,
    fun incomplete => fills.region.trans (h.source.movable incomplete),
    fills.capacity.trans h.source.size⟩
  queue := h.queue
  usable := h.usable
  size := h.size
  current := h.current
  received := congrArg (· ++ moved) h.received
  accepted := h.accepted
  inbound := by
    change ledger.consumed ++ source.toList = got ++ moved
    rw [fills.content, ← List.append_assoc, h.inbound]
  outbound := h.outbound
  standing := by
    have standing := h.standing
    rw [intact] at standing
    change c.format.Standing c.room ledger.consumed source.toList ledger.pushed pipe.failure
    rw [intact]
    exact standing

/-- A sink takes bytes from the destination. -/
theorem Holds.deliver (h : c.Holds got gave pipe ring ledger) {moved : Bytes} {ring' : Ring}
    (drains : ring.Drains moved ring') :
    c.Holds got (gave ++ moved) pipe ring'
      { ledger with accepted := ledger.accepted ++ moved } where
  transform := h.transform
  ceiling := h.ceiling
  destination := h.destination
  alive := h.alive
  handlers := h.handlers
  source := h.source
  queue := h.queue
  usable := ⟨drains.valid, drains.cleaned.trans h.usable.2⟩
  size := drains.capacity.trans h.size
  current := h.current
  received := h.received
  accepted := congrArg (· ++ moved) h.accepted
  inbound := h.inbound
  outbound := by
    change _ = c.held ++ ledger.pushed
    rw [List.append_assoc gave, ← drains.content]
    exact h.outbound
  standing := h.standing

variable [Transform τ]

/-- What one call of the transform comes to while a run is in progress. -/
def Turned (c : Course τ) (got gave : Bytes) (ring : Ring) (pipe : Pipe τ) :
    Except Error Bool → Pipe τ → Ledger → Prop
  | .ok true => fun after ledger =>
    c.Runs got gave after ring ledger ∧ after.source.weight < pipe.source.weight
  | .ok false => fun after ledger =>
    c.Runs got gave after ring ledger ∧ after.source.weight ≤ pipe.source.weight ∧
      after.queue = pipe.queue ∧ c.format.Quiet after
  | .error e => fun after ledger => c.Breaks got gave e after ring ledger

theorem Runs.turned [Transform.Proper τ] (h : c.Runs got gave pipe ring ledger)
    (codes : c.format.Codes c.transform) (ready : pipe.isReady) :
    ∃ used pushed outcome, (pipe.advance p).outcome = .ok outcome ∧
      pipe.Advances p used pushed (pipe.advance p) ∧
      c.Turned got gave ring pipe outcome (pipe.advance p).pipe
        { ledger with
          consumed := ledger.consumed ++ used
          pushed := ledger.pushed ++ pushed } := by
  rw [← h.transform] at codes
  obtain ⟨used, pushed, outcome, done, advances, same, turns⟩ :=
    Pipe.turns_advance p h.source codes h.queue ready
  refine ⟨used, pushed, outcome, done, advances, ?_⟩
  have standing := h.standing
  rw [h.intact] at standing
  have standing : Translates (c.format.Within c.room) ledger.consumed ledger.pushed := standing
  have still : (pipe.advance p).pipe.operating = true ∧ (pipe.advance p).pipe.failure = none := by
    obtain ⟨_, _, _, _, _, eq⟩ := advances.same
    rw [eq]
    exact ⟨h.operating, h.intact⟩
  have goes_on (standing : Translates (c.format.Within c.room) (ledger.consumed ++ used)
      (ledger.pushed ++ pushed)) :
      c.Runs got gave (pipe.advance p).pipe ring { ledger with
        consumed := ledger.consumed ++ used
        pushed := ledger.pushed ++ pushed } := by
    have holds : c.Holds got gave { (pipe.advance p).pipe with failure := none } ring _ :=
      h.advance advances same standing
    have eta : { (pipe.advance p).pipe with failure := none } = (pipe.advance p).pipe := by
      rw [← still.2]
    rw [eta] at holds
    exact ⟨holds, still.1, still.2⟩
  -- Units that were in the source fit into it.
  have within {units made : Bytes} (translates : Translates c.format.unit units made)
      (le : units.length ≤ pipe.source.toList.length) :
      Translates (c.format.Within c.room) (ledger.consumed ++ units) (ledger.pushed ++ made) := by
    refine standing.append (translates.imp fun unit _ inside whole => ⟨whole, ?_⟩)
    have fits := h.source.valid.used_le
    rw [← h.source.valid.length_toList, h.source.size] at fits
    exact Nat.le_trans inside (Nat.le_trans le fits)
  cases turns with
  | onward translates lighter =>
      refine ⟨goes_on (within translates ?_), lighter⟩
      rw [advances.content, List.length_append]
      exact Nat.le_add_right _ _
  | idle quiet still =>
      have waiting := advances.idle done
      exact ⟨goes_on (within .nil (Nat.zero_le _)), still, waiting, quiet waiting⟩
  | starved incomplete full =>
      refine ⟨h.advance advances same ⟨within .nil (Nat.zero_le _), incomplete, ?_⟩, rfl⟩
      have inside := advances.valid.used_le
      rw [advances.valid.length_toList, ← h.source.size, ← advances.size]
      unfold Ring.free at full
      omega
  | refused content translates rejected =>
      refine ⟨h.advance advances same ⟨_, _, _, _, content, ?_, rejected⟩, rfl⟩
      rw [List.append_nil]
      apply within translates
      rw [advances.content, content, List.length_append, List.length_append, List.length_append]
      omega

/-- One call of the transform, unless it may not be called. -/
theorem Runs.secures_transformOnce [Inhabited τ] [Transform.Proper τ]
    (h : c.Runs got gave pipe ring ledger) (codes : c.format.Codes c.transform) :
    Secures (Stands p d before pipe ring ledger : World τ ω → Prop) (Pipe.transformOnce p)
      fun answer w =>
        (pipe.isReady = false ∧ answer = .ok false ∧ Stands p d before pipe ring ledger w) ∨
        (pipe.isReady = true ∧ (pipe.advance p).outcome = .ok answer ∧ ∃ ledger',
          Stands p d before (pipe.advance p).pipe ring ledger' w ∧
          c.Turned got gave ring pipe answer (pipe.advance p).pipe ledger') := by
  refine Stands.at_getPipe ?_
  split
  · rename_i ready
    obtain ⟨used, pushed, outcome, done, advances, turned⟩ := h.turned codes ready
    have own (journal : List Event) (eq : Ledger.of p journal = ledger) :
        Ledger.of p ((pipe.advance p).events ++ journal) = { ledger with
          consumed := ledger.consumed ++ used
          pushed := ledger.pushed ++ pushed } := by
      rw [advances.ledger, eq]
    refine Stands.at_modifyPipe (Stands.at_recordAll own id (fun q other journal _ =>
      advances.elsewhere q other journal) ?_)
    rw [done]
    exact upholds_pure fun w stands => .inr ⟨ready, rfl, _, stands, turned⟩
  · rename_i unready
    exact upholds_pure fun w stands => .inl ⟨Bool.eq_false_iff.2 unready, rfl, stands⟩

end Course

end ByteFlow
