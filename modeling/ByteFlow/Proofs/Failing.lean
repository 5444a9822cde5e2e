/-
# How runs fail

A run that ends with a terminal error makes a wreck of its pipe, and tells the handlers of it that
are registered at that moment. A run that ends in any other way leaves the pipe to later runs, and
no byte is lost: what waited at the beginning and what the transform has pushed since is what went
into destinations, then what still waits. `settleTelling` does what a run does and tells the bytes
that went into destinations.

A handler may do what it likes while a segment is drained. It finds the pipe operating, so no run
that it starts gets any further, and nothing but the run in progress makes the pipe fail.
-/

import ByteFlow.Proofs.Manner
import ByteFlow.Proofs.Wreck
import Mathlib.Data.List.Nodup

namespace ByteFlow

open Machine

variable {τ ω : Type}

/-! ## Telling what was drained -/

section Telling

variable [Inhabited τ] [Transform τ]

/-- The manner of runs, with the bytes told that went into destinations. -/
def Manner.telling (o : Owner τ ω) : Manner τ ω Bytes :=
  .noting o (fun moved outflow => moved ++ outflow.moved) fun moved _ _ => moved

/-- Settles as `settle` does. To the bytes that went into destinations before it adds those that go
there now. -/
def Pipe.settleTelling (o : Owner τ ω) (p : PipeId) (passes : Nat) (moved : Bytes) :
    Machine τ ω (Except Error Unit × Bytes) :=
  (Manner.telling o).settle o p passes moved

end Telling

/-! ## Accounts -/

/-- Of the bytes that waited at the start and those that the transform has pushed since, some were
moved, and the others wait. -/
def Accounts (start base moved waiting pushed : Bytes) : Prop :=
  ∃ new, pushed = base ++ new ∧ start ++ new = moved ++ waiting

namespace Accounts

variable {start base moved waiting pushed : Bytes}

theorem refl (start base : Bytes) : Accounts start base [] start base :=
  ⟨[], (List.append_nil _).symm, List.append_nil _⟩

/-- Bytes that were in front of those that wait are moved. -/
theorem move {front : Bytes} (h : Accounts start base moved (front ++ waiting) pushed) :
    Accounts start base (moved ++ front) waiting pushed := by
  obtain ⟨new, grown, split⟩ := h
  exact ⟨new, grown, split.trans (List.append_assoc _ _ _).symm⟩

/-- Bytes that are pushed wait behind the others. -/
theorem push (h : Accounts start base moved waiting pushed) (more : Bytes) :
    Accounts start base moved (waiting ++ more) (pushed ++ more) := by
  obtain ⟨new, grown, split⟩ := h
  refine ⟨new ++ more, ?_, ?_⟩
  · rw [grown, List.append_assoc]
  · rw [← List.append_assoc, split, List.append_assoc]

end Accounts

/-! ## A pipe that has not failed -/

theorem Pipe.wreck?_of_none {pipe : Pipe τ} (live : pipe.failure = none) : pipe.wreck? = none :=
  congrArg (Option.map _) live

section Live

variable {cleans : Prop} {p : PipeId} {seen : Option (Wreck τ) → ω → Prop}
  {moment moment' : Moment τ cleans} {pipe after : Pipe τ} {history history' : List Event}
  {owner : ω} {books books' : Bytes → Bytes → Prop}

theorem Pipe.Observed.unfailed (h : pipe.Observed p seen moment history owner)
    (live : pipe.failure = none) : Unfailed p history := by
  have reported := h.orderly.reported
  rw [live] at reported
  exact reported

/-- A pipe that has not failed may go on in any way that keeps it in order. -/
theorem Pipe.Observed.go_on (h : pipe.Observed p seen moment history owner)
    (live : pipe.failure = none)
    (same : after.failure = pipe.failure ∧ after.handlers = pipe.handlers)
    (unfailed : Unfailed p history') (source : after.source.Valid) (queue : after.queue.Sound)
    (holds : moment'.Holds after history') : after.Observed p seen moment' history' owner := by
  have still : after.failure = none := same.1.trans live
  have unseen := h.seen
  rw [Pipe.wreck?_of_none live] at unseen
  refine ⟨⟨?_, same.2 ▸ h.orderly.handlers, source, queue⟩, ?_, holds⟩
  · rw [still]
    exact unfailed
  · rw [Pipe.wreck?_of_none still]
    exact unseen

/-- A run may change the queue, if the books follow. -/
theorem Pipe.Observed.set_queue (h : pipe.Observed p seen (.busy books : Moment τ cleans) history
    owner) {queue : Queue} (sound : queue.Sound)
    (follow : books pipe.queue.toList (pushedIn history) →
      books' queue.toList (pushedIn history)) :
    { pipe with queue }.Observed p seen (.busy books' : Moment τ cleans) history owner := by
  obtain ⟨operating, live, kept⟩ := h.moment
  exact h.go_on live ⟨rfl, rfl⟩ (h.unfailed live) h.orderly.source sound
    ⟨operating, live, fun intact => follow (kept intact)⟩

/-- Except while a run is in progress, it does not matter whether the pipe operates. -/
theorem Pipe.Observed.set_operating (h : pipe.Observed p seen moment history owner)
    (calm : ∀ books, moment ≠ .busy books) (operating pendingWritable : Bool) :
    { pipe with operating, pendingWritable }.Observed p seen moment history owner := by
  refine ⟨⟨h.orderly.reported, h.orderly.handlers, h.orderly.source, h.orderly.queue⟩, h.seen, ?_⟩
  have known := h.moment
  cases moment with
  | any => exact known
  | busy books => exact (calm books rfl).elim
  | failed kind told => exact known
  | wrecked wreck uncleaned => exact known

end Live

/-- A segment is put together again from what the ring that it is drained into did not take. -/
theorem Ring.ensures_drain [Inhabited τ] {o : Owner τ ω} {d : RingId} {inv : World τ ω → Prop}
    (stores : ∀ data, Keeps inv (SharedRing.store o d data)) {segment : Ring}
    (valid : segment.Valid) (held : segment.used ≠ 0)
    (piece : segment.isContiguous ∧ segment.cleaned = false) {room : Nat} (wanted : 0 < room) :
    Ensures inv (segment.writeTo (SharedRing.sink o d) room) fun outflow w =>
      inv w ∧ segment.Drains outflow.moved outflow.ring ∧ outflow.ring.isContiguous := by
  rw [Ring.writeTo_of_isContiguous valid piece.2 piece.1 held wanted, map_eq_pure_bind]
  refine Ensures.bind (stores _) fun answer => ensures_pure fun w holds => ⟨holds, ?_⟩
  have content := (List.take_append_drop room segment.toList).symm
  have drains := (Ring.drains_afterOffer valid content answer).1
  refine ⟨?_, Ring.isContiguous_afterOffer valid piece.1 content answer⟩
  cases answer <;> exact drains

namespace Observed

variable [Inhabited τ] {cleans : Prop} {p : PipeId} {seen : Option (Wreck τ) → ω → Prop}
  {moment : Moment τ cleans} {w : World τ ω} {o : Owner τ ω} {start base moved : Bytes}
  {books : Bytes → Bytes → Prop}

section Reacting

variable
  (reacts : ∀ (moment : Moment τ cleans) handler edge,
    Keeps (Observed p seen moment) (o.react handler edge))

include reacts

/-- The bytes of a segment that is drained are moved, and what is left of it waits in front. -/
theorem ensures_pour {segment : Ring} {rest : Queue}
    (h : Observed p seen (.busy (Accounts start base moved) : Moment τ cleans) w)
    (popped : (w.pipes.get p).queue.popFront = some (segment, rest))
    (room : 0 < (w.rings.get (w.pipes.get p).destination).ring.free) :
    Ensures (· = w.changed p fun pipe => { pipe with queue := rest })
      (segment.writeTo (SharedRing.sink o (w.pipes.get p).destination)
        (w.rings.get (w.pipes.get p).destination).ring.free)
      fun outflow => outflow.Returns p (Observed p seen
        (.busy (Accounts start base (moved ++ outflow.moved)) : Moment τ cleans)) := by
  obtain ⟨⟨valid, held⟩, piece, rest_sound⟩ := h.2.orderly.queue.popFront popped
  -- While the segment is out of the queue, its bytes are in front of those that wait.
  let aside : Moment τ cleans :=
    .busy fun waiting => Accounts start base moved (segment.toList ++ waiting)
  have taken_out : Observed p seen aside (w.changed p fun pipe => { pipe with queue := rest }) := by
    refine set_pipe (h.2.set_queue rest_sound fun accounts => ?_)
    rw [Queue.toList_popFront popped] at accounts
    exact accounts
  have stores (data : Bytes) := admits.store (reacts aside) (w.pipes.get p).destination data
  have drains := Ring.ensures_drain stores valid held piece room
  refine (Ensures.here taken_out drains).post_imp fun outflow w ⟨h, drains, whole⟩ => ?_
  have put_back : Observed p seen
      (.busy (Accounts start base (moved ++ outflow.moved)) : Moment τ cleans)
      (w.changed p fun pipe => { pipe with queue := pipe.queue.pushFront outflow.ring }) := by
    refine set_pipe (h.2.set_queue (h.2.orderly.queue.pushFront drains.valid
      ⟨whole, drains.cleaned.trans piece.2⟩) fun accounts => ?_)
    rw [Queue.toList_pushFront _ drains.valid]
    rw [drains.content, List.append_assoc] at accounts
    exact accounts.move
  refine ⟨fun cleaned => ?_, fun _ _ => put_back, fun _ _ _ _ => ?_⟩
  · -- Of a pipe that was cleaned nothing more is asked.
    obtain ⟨operating, live, _⟩ := h.2.moment
    refine ⟨h.1, h.2.go_on live ⟨rfl, rfl⟩ (h.2.unfailed live) h.2.orderly.source
      h.2.orderly.queue ⟨operating, live, fun intact => ?_⟩⟩
    cases cleaned.symm.trans intact
  · exact set_pipe (put_back.2.of_same ⟨_, true, _, _, rfl⟩)

variable [Transform τ] [Transform.Candid τ]

omit reacts in
/-- What the transform pushes is in the books. -/
theorem keeps_transformOnce :
    Keeps (Observed (ω := ω) p seen (.busy (Accounts start base moved) : Moment τ cleans))
      (Pipe.transformOnce p) := by
  refine .pointwise fun w h =>
    Pipe.ensures_transformOnce h.2.orderly.source h.2.orderly.queue ?_ h
  intro answer used pushed advances _
  obtain ⟨operating, live, kept⟩ := h.2.moment
  have grown : pushedIn (history p (((w.pipes.get p).advance p).events ++ w.journal)) =
      pushedIn (history p w.journal) ++ pushed := by
    rw [← pushed_of_history, ← pushed_of_history, advances.ledger]
  have unfailed : Unfailed p (history p (((w.pipes.get p).advance p).events ++ w.journal)) := by
    refine fun event member => Bool.eq_false_iff.2 fun fails => ?_
    have before := h.2.unfailed live event (fails_of_mem_history_advance fails member)
    cases before.symm.trans fails
  obtain ⟨source, transform, queue, scratch, pending, same⟩ := advances.same
  refine set_pipe
    (w := { w with journal := ((w.pipes.get p).advance p).events ++ w.journal })
    (h.2.go_on live ?_ unfailed advances.valid advances.sound ⟨?_, ?_, ?_⟩)
  · rw [same]
    exact ⟨rfl, rfl⟩
  · rw [same]
    exact operating
  · rw [same]
    exact live
  · intro intact
    rw [advances.waiting, grown]
    exact (kept (advances.cleaned.symm.trans intact)).push pushed

/-- To tell what was drained changes nothing, and the books agree with what is told. -/
theorem follows_telling : (Manner.telling o).Follows o o p True fun moved =>
    Observed p seen (.busy (Accounts start base moved) : Moment τ cleans) :=
  Manner.follows_noting (fun _ => steady.log)
    (fun h popped room => ensures_pour reacts h popped room)
    fun h => .here h keeps_transformOnce

theorem mimics_settle (moved : Bytes) :
    Mimics True Prod.fst (Observed p seen (.busy (Accounts start base moved) : Moment τ cleans))
      (Pipe.settleTelling o p o.passes moved) (Pipe.settle o p o.passes) fun got =>
        Observed p seen (.busy (Accounts start base got.2) : Moment τ cleans) :=
  (follows_telling reacts).settle (Nat.le_refl _) (fun _ => Nat.le_refl _) moved

end Reacting

end Observed

/-! ## The end of a run -/

theorem ErrorKind.isTerminal_iff {kind : ErrorKind} :
    kind.isTerminal ↔ kind = .underflow ∨ kind = .transform := by
  cases kind <;> simp [isTerminal]

section Ends

variable [Inhabited τ] {o : Owner τ ω} {p : PipeId} {e : Error} {w : World τ ω}

/-- The world after a run of a pipe has failed, before any handler is told. -/
def World.failed (p : PipeId) (e : Error) (w : World τ ω) : World τ ω :=
  { w with
    pipes := w.pipes.set p { w.pipes.get p with failure := some e.kind }
    journal := .fired (.pipe p) (.error e) ::
      .logged (.streamFailed (w.pipes.get p).direction e) :: w.journal }

/-- The world after a run of a pipe was aborted. -/
def World.aborted (p : PipeId) (e : Error) (w : World τ ω) : World τ ω :=
  { w with journal := .logged (.runAborted (w.pipes.get p).direction e) :: w.journal }

/-- A terminal error is recorded, and the handlers that are registered then are told, one by one. -/
theorem Pipe.fail_of_terminal (terminal : e.kind.isTerminal) :
    Pipe.fail o p e w =
      (((w.failed p e).pipes.get p).handlers.forM (tell o (.pipe p) (.error e)) :
        Machine τ ω PUnit) (w.failed p e) := by
  change (if e.kind.isTerminal then _ else _ : Machine τ ω Unit) w = _
  rw [if_pos terminal]
  rfl

/-- Any other error only shows in the log. -/
theorem Pipe.fail_of_not_terminal (passing : ¬ e.kind.isTerminal) :
    Pipe.fail o p e w = .ok () (w.aborted p e) := by
  change (if e.kind.isTerminal then _ else _ : Machine τ ω Unit) w = _
  rw [if_neg passing]
  rfl

end Ends

namespace Observed

variable [Inhabited τ] {cleans : Prop} {p : PipeId} {seen : Option (Wreck τ) → ω → Prop}
  {moment : Moment τ cleans} {w : World τ ω} {o : Owner τ ω} {books : Bytes → Bytes → Prop}

/-- Whatever is known of a moment may be forgotten. -/
theorem forget (h : Observed p seen moment w) : Observed p seen (.any : Moment τ cleans) w :=
  ⟨h.1, h.2.orderly, h.2.seen, trivial⟩

/-- The books of a run begin with what waits, and what was pushed before. -/
theorem begin_books (h : Observed p seen moment w) (operating : (w.pipes.get p).operating = true)
    (live : (w.pipes.get p).failure = none) :
    Observed p seen (.busy (Accounts (w.pipes.get p).queue.toList
      (pushedIn (history p w.journal)) []) : Moment τ cleans) w :=
  ⟨h.1, h.2.orderly, h.2.seen, operating, live, fun _ => .refl _ _⟩

/-- A pipe that fails is orderly again as soon as the error is on record. -/
theorem failed (late : ∀ wreck owner, seen none owner → seen (some wreck) owner)
    (h : Observed p seen (.busy books : Moment τ cleans) w) {e : Error}
    (terminal : e.kind.isTerminal) :
    Observed p seen (.failed e.kind (obituary p e [] (history p w.journal)) : Moment τ cleans)
      (w.failed p e) := by
  obtain ⟨_, live, _⟩ := h.2.moment
  have unseen := h.2.seen
  rw [Pipe.wreck?_of_none live] at unseen
  have told : history p (.fired (.pipe p) (.error e) ::
      .logged (.streamFailed (w.pipes.get p).direction e) :: w.journal) =
      obituary p e [] (history p w.journal) := by
    rw [history_of_announces .fired, history_of_elsewhere ⟨rfl, rfl⟩]
    rfl
  refine set_pipe (w := { w with
    journal := .fired (.pipe p) (.error e) ::
      .logged (.streamFailed (w.pipes.get p).direction e) :: w.journal })
    ⟨⟨?_, h.2.orderly.handlers, h.2.orderly.source, h.2.orderly.queue⟩, late _ _ unseen, rfl, told⟩
  exact ⟨ErrorKind.isTerminal_iff.1 terminal, e, [], _, rfl, told, List.nodup_nil,
    h.2.unfailed live⟩

/-- A handler is told of the error, for the first time. -/
theorem notified {e : Error} {handler : HandlerId} {told : List HandlerId} {earlier : List Event}
    (h : Observed p seen (.failed e.kind (obituary p e told earlier) : Moment τ cleans) w)
    (terminal : e.kind.isTerminal) (unfailed : Unfailed p earlier)
    (nodup : (handler :: told).Nodup) :
    Observed p seen (.failed e.kind (obituary p e (handler :: told) earlier) : Moment τ cleans)
      { w with journal := .notified (.pipe p) handler (.error e) :: w.journal } := by
  obtain ⟨failed, known⟩ := h.2.moment
  have same : history p (.notified (.pipe p) handler (.error e) :: w.journal) =
      obituary p e (handler :: told) earlier := by
    rw [history_of_announces (.notified handler), known]
    rfl
  refine ⟨h.1, ⟨?_, h.2.orderly.handlers, h.2.orderly.source, h.2.orderly.queue⟩, h.2.seen,
    failed, same⟩
  rw [failed]
  exact ⟨ErrorKind.isTerminal_iff.1 terminal, e, _, _, rfl, same, nodup, unfailed⟩

section Reacting

variable (late : ∀ wreck owner, seen none owner → seen (some wreck) owner)
  (reacts : ∀ (moment : Moment τ cleans) handler edge,
    Keeps (Observed p seen moment) (o.react handler edge))

include reacts

/-- The handlers are told one after the other, and whatever each of them does, nobody is told
besides. -/
theorem ensures_tells {e : Error} {earlier : List Event} (terminal : e.kind.isTerminal)
    (unfailed : Unfailed p earlier) {handlers told : List HandlerId}
    (nodup : (handlers.reverse ++ told).Nodup) :
    Ensures (Observed p seen (.failed e.kind (obituary p e told earlier) : Moment τ cleans))
      (handlers.forM (tell o (.pipe p) (.error e))) fun _ =>
        Observed p seen (.failed e.kind (obituary p e (handlers.reverse ++ told) earlier) :
          Moment τ cleans) := by
  induction handlers generalizing told with
  | nil => exact ensures_pure fun _ => id
  | cons handler others ih =>
      rw [List.reverse_cons, List.append_assoc] at nodup ⊢
      have first : Ensures
          (Observed p seen (.failed e.kind (obituary p e told earlier) : Moment τ cleans))
          (tell o (.pipe p) (.error e) handler) fun _ =>
            Observed p seen (.failed e.kind (obituary p e (handler :: told) earlier) :
              Moment τ cleans) :=
        .pointwise fun w h => .at_record (.here
          (h.notified terminal unfailed (List.Nodup.of_append_right nodup)) (reacts _ handler _))
      exact first.bind fun _ => ih nodup

include late

/-- If a run fails, the handlers that are registered then are told, each of them once. -/
theorem ensures_told (h : Observed p seen (.busy books : Moment τ cleans) w) {e : Error}
    (terminal : e.kind.isTerminal) :
    Ensures (· = w.failed p e)
      (((w.failed p e).pipes.get p).handlers.forM (tell o (.pipe p) (.error e))) fun _ =>
        Observed p seen (.failed e.kind
          (obituary p e (w.pipes.get p).handlers.reverse (history p w.journal)) :
            Moment τ cleans) := by
  have same : ((w.failed p e).pipes.get p).handlers = (w.pipes.get p).handlers := by
    rw [World.failed, Table.get_set, if_pos rfl]
  have nodup : ((w.pipes.get p).handlers.reverse ++ []).Nodup := by
    rw [List.append_nil]
    exact List.nodup_reverse.2 h.2.orderly.handlers
  have tells := ensures_tells reacts terminal (h.2.unfailed h.2.moment.2.1) nodup
  rw [List.append_nil] at tells
  rw [same]
  exact .here (h.failed late terminal) tells

theorem ensures_fail (e : Error) :
    Ensures (Observed p seen (.busy books : Moment τ cleans)) (Pipe.fail o p e) fun _ =>
      Observed p seen (.any : Moment τ cleans) := by
  intro w _ w' h ran
  by_cases terminal : e.kind.isTerminal
  · rw [Pipe.fail_of_terminal terminal] at ran
    exact (ensures_told late reacts h terminal rfl ran).forget
  · rw [Pipe.fail_of_not_terminal terminal] at ran
    cases ran
    exact (steady.log _ h rfl).forget

variable [Transform τ] [Transform.Candid τ]

/-- A pipe that has failed does not do anything while it operates. -/
theorem ensures_operate (calm : ∀ books, moment ≠ .busy books) :
    Ensures (fun w => Observed p seen moment w ∧ (w.pipes.get p).operating = true)
      (Pipe.operate o p) fun _ => Observed p seen moment := by
  refine .pointwise fun w ⟨h, operating⟩ => .at_getPipe ?_
  split
  · rename_i unfailed
    have live : (w.pipes.get p).failure = none := Option.isNone_iff_eq_none.1 unfailed
    cases moment with
    | any =>
        have begun := h.begin_books operating live
        refine Ensures.bind (.here begun ((mimics_settle reacts []).ensures trivial))
          fun settled => ?_
        refine .pointwise fun w ⟨got, _, h⟩ => ?_
        cases settled with
        | error e => exact .here h (ensures_fail late reacts e)
        | ok => exact .here h (ensures_pure fun _ => forget)
    | busy books => exact (calm books rfl).elim
    | failed kind told => cases live.symm.trans h.2.moment.1
    | wrecked wreck uncleaned =>
        have known : (w.pipes.get p).wreck? = some wreck := h.2.moment
        rw [Pipe.wreck?_of_none live] at known
        cases known
  · exact .here h (keeps_pure _)

/-- A run keeps what is known, also one that is started from inside another one. -/
theorem keeps_run (q : PipeId) : Keeps (Observed p seen moment) (Pipe.run o q) := by
  by_cases own : q = p
  · rw [own]
    refine steady.keeps_during (.pointwise fun w h => .at_getPipe ?_) p
    split
    · exact .here h (steady.log _)
    · rename_i idle
      have calm : ∀ books, moment ≠ .busy books := by
        rintro books rfl
        exact idle h.2.moment.1
      have begun : Observed p seen moment (w.begun p) :=
        (set_pipe (h.2.set_operating calm true _)).set_journal (history_of_elsewhere ⟨rfl, rfl⟩)
      have operates : ((w.begun p).pipes.get p).operating = true := by
        rw [World.begun, World.get_changed]
      have releases : Keeps (Observed (τ := τ) (ω := ω) p seen moment) (Pipe.release p) :=
        .pointwise fun u h => Machine.ensures_release
          ((set_pipe (h.2.set_operating calm false false)).set_journal
            (history_of_elsewhere ⟨rfl, rfl⟩))
      refine .at_modifyPipe (.at_record (Ensures.bind (.here ⟨begun, operates⟩
        (ensures_operate late reacts calm).onHalt) fun _ => ?_))
      refine Ensures.bind releases fun made_room => ?_
      split
      · have ordinary : Edge.writable.IsOrdinary := trivial
        exact steady.hosts.emit (reacts moment) fun _ => steady.announce ordinary
      · exact keeps_pure _
  · exact (blind (reacts moment) own).keeps_run

end Reacting

end Observed

end ByteFlow
