/-
# Conservation of bytes

However the calls of a pipe are nested in one another's edges, whatever its transform does to its
output and wherever a stream fails, no byte is lost, doubled or moved out of its place between the
source and the sinks.

The invariant is `Balanced`: the books of the pipe balance, with the bytes that a run has on their
way. It is proved of each computation of a pipe in turn, for every number of bytes on their way that
the computation can be interrupted with; handlers are assumed to keep it and programs are then shown
to keep it by `Conduct.keeps`.
-/

import ByteFlow.Proofs.Balance
import ByteFlow.Proofs.Conduct
import ByteFlow.Proofs.Withstanding

namespace ByteFlow

open Machine

variable {τ ω : Type} [Inhabited τ]

/-- The pipe is in use, and its books balance. -/
def Balanced (p : PipeId) (R : RingId → Prop) (flight : Option Bytes) (w : World τ ω) : Prop :=
  p < w.pipes.next ∧ Balance p R flight (w.pipes.get p) w.rings (Ledger.of p w.journal)

namespace Balanced

variable {p : PipeId} {R : RingId → Prop} {flight : Option Bytes} {w w' : World τ ω}

/-! ## Bookkeeping -/

theorem of_note (h : Balanced p R flight w) {event : Event} (note : event.IsNote) :
    Balanced p R flight { w with journal := event :: w.journal } := by
  refine ⟨h.1, ?_⟩
  change Balance _ _ _ _ _ (Ledger.of p (event :: w.journal))
  rw [Ledger.of_note note]
  exact h.2

/-- A change to the pipe itself. -/
theorem set_pipe {pipe : Pipe τ}
    (own : Balance p R flight pipe w.rings (Ledger.of p w.journal)) :
    Balanced p R flight { w with pipes := w.pipes.set p pipe } :=
  Table.set_self (P := fun pipe => Balance p R flight pipe w.rings (Ledger.of p w.journal)) own

/-- A change to another pipe. -/
theorem set_other_pipe (h : Balanced p R flight w) {q : PipeId} (other : q ≠ p) (pipe : Pipe τ) :
    Balanced p R flight { w with pipes := w.pipes.set q pipe } :=
  Table.set_other (P := fun pipe => Balance p R flight pipe w.rings (Ledger.of p w.journal)) h other
    pipe

theorem untouched (h : Balanced p R flight w) (untouched : Untouched p R w w') :
    Balanced p R flight w' := by
  obtain ⟨handlers, same⟩ := untouched.pipe
  refine ⟨untouched.inUse, ?_⟩
  rw [same, untouched.ledger]
  exact {
    inUse := untouched.destinationInUse
    inRange := h.2.inRange
    valid := fun r range => untouched.valid r range (h.2.valid r range)
    alone := fun r range q member => h.2.alone r range q ((untouched.listeners r range q).1 member)
    operating := h.2.operating
    source := h.2.source
    intact := h.2.intact
    queue := h.2.queue
    current := h.2.current
    inbound := h.2.inbound
    outbound := by
      change _ → _ ++ (w'.rings.get (w.pipes.get p).destination).ring.toList ++ _ ++ _ = _
      rw [untouched.destination]
      exact h.2.outbound }

/-- To take an observer away is not in the books. -/
theorem keeps_detach (r : RingId) (observer : Observer) :
    Keeps (Balanced (τ := τ) (ω := ω) p R flight) (detach r observer) := by
  refine ensures_modifyShared fun w h => ⟨h.1, h.2.set_observers r fun range q member => ?_⟩
  exact h.2.alone r range q (List.mem_filter.1 member).1

/-- What is no byte that moves is not in the books. -/
theorem keeps_note {event : Event} (note : event.IsNote) :
    Keeps (Balanced (τ := τ) (ω := ω) p R flight) (record event) :=
  ensures_record fun _ h => h.of_note note

theorem steady : Steady (Balanced (τ := τ) (ω := ω) p R flight) where
  log entry := keeps_note trivial
  announce _ _ announces := keeps_note announces.isNote
  count q f := by
    apply ensures_modifyPipe
    intro w h
    by_cases own : q = p
    · rw [own]
      exact set_pipe (h.2.of_same rfl rfl rfl rfl)
    · exact h.set_other_pipe own _
  retire q := (closed_keeps _).retire fun r => keeps_detach r _

/-- A listener that moves over to another ring takes the destination there. -/
theorem redirected (h : Balanced p R flight w) {candidate : RingId} (range : R candidate)
    (drained : (w.rings.get (w.pipes.get p).destination).ring.used = 0) {held : Nat}
    (holds : (w.rings.get candidate).ring.used = held) :
    Balanced p R flight
      { w with
        pipes := w.pipes.set p { w.pipes.get p with destination := candidate }
        journal := .redirected p candidate held :: w.journal
        rings := w.rings.set candidate { w.rings.get candidate with
          observers := enlist (w.rings.get candidate).observers (.listener p) } } := by
  have same := ring_set_observers w.rings candidate
    (enlist (w.rings.get candidate).observers (.listener p))
  have joined : Balance p R flight (w.pipes.get p) (w.rings.set candidate
      { w.rings.get candidate with
        observers := enlist (w.rings.get candidate).observers (.listener p) })
      (Ledger.of p w.journal) := by
    apply h.2.set_observers candidate
    intro _ q member
    rcases mem_enlist.1 member with old | new
    · exact h.2.alone candidate range q old
    · exact Observer.listener.inj new
  have inUse : candidate < (w.rings.set candidate
      { w.rings.get candidate with
        observers := enlist (w.rings.get candidate).observers (.listener p) }).next :=
    Table.lt_next_set _ _ _
  rw [← same] at drained
  have moved := joined.redirect inUse range drained
  rw [same, holds, ← Ledger.of_redirected] at moved
  exact set_pipe (w := { w with
    journal := .redirected p candidate held :: w.journal
    rings := w.rings.set candidate { w.rings.get candidate with
      observers := enlist (w.rings.get candidate).observers (.listener p) } }) moved

/-! ## Runs -/

theorem ensures_release :
    Ensures (Balanced (τ := τ) (ω := ω) p R (some [])) (Pipe.release p) fun _ =>
      Balanced p R none := by
  refine .pointwise fun w h => ?_
  refine .at_getPipe (.at_modifyPipe (.here (set_pipe h.2.finish) ?_))
  exact Ensures.bind (keeps_note trivial) fun _ => keeps_pure _

section Reacting

variable {o : Owner τ ω}
  (reacts : ∀ flight handler edge,
    Keeps (Balanced p R flight : World τ ω → Prop) (o.react handler edge))

include reacts

/-- Storing into the destination lands the bytes that were taken; handlers then find the rest still
on its way. -/
theorem ensures_store (d : RingId) (moved rest : Bytes) :
    Ensures (fun w => Balanced p R (some (moved ++ rest)) w ∧ (w.pipes.get p).destination = d)
      (SharedRing.store o d moved)
      fun answer => Balanced p R (some (moved.drop (Ring.countOf answer) ++ rest)) := by
  refine Machine.ensures_store ?_ fun answer => steady.hosts.fireReadable (reacts _) d
  rintro w ⟨h, rfl⟩
  refine ⟨h.1, Balance.land ?_ (Ring.fills_store (h.2.valid _ h.2.inRange) moved)⟩
  rw [← List.append_assoc, List.take_append_drop]
  exact h.2

/-- While a segment is drained, what is left of it is on its way. -/
theorem ensures_writeTo_segment {segment : Ring} (valid : segment.Valid) (held : segment.used ≠ 0)
    (piece : segment.isContiguous ∧ segment.cleaned = false) (d : RingId) {room : Nat}
    (wanted : 0 < room) :
    Ensures
      (fun w => Balanced p R (some segment.toList) w ∧ (w.pipes.get p).destination = d)
      (segment.writeTo (SharedRing.sink o d) room)
      fun outflow w => Balanced p R (some outflow.ring.toList) w ∧ outflow.ring.Valid ∧
        outflow.ring.isContiguous ∧ outflow.ring.cleaned = false := by
  rw [Ring.writeTo_of_isContiguous valid piece.2 piece.1 held wanted, map_eq_pure_bind]
  have content : segment.toList = segment.toList.take room ++ segment.toList.drop room :=
    (List.take_append_drop _ _).symm
  have stored := ensures_store reacts d (segment.toList.take room) (segment.toList.drop room)
  rw [← content] at stored
  refine stored.bind fun answer => ?_
  apply ensures_pure
  intro w h
  obtain ⟨drains, left⟩ := Ring.drains_afterOffer valid content answer
  rw [← left] at h
  exact ⟨h, drains.valid, Ring.isContiguous_afterOffer valid piece.1 content answer,
    drains.cleaned.trans piece.2⟩

/-- Draining one segment after the other leaves nothing on its way. -/
theorem unloads : Unloads o p (fun _ => True) (Balanced p R (some [])) where
  halts _ _ := trivial
  log entry := ensures_iff_upholds.1 (steady.log entry)
  pours w segment rest h popped room := by
    obtain ⟨⟨valid, held⟩, piece, rest_sound⟩ := h.2.queue.popFront popped
    have taken_out : Balance p R (some segment.toList) { w.pipes.get p with queue := rest }
        w.rings (Ledger.of p w.journal) := by
      refine h.2.set_queue rfl rest_sound ?_
      rw [Queue.toList_popFront popped]
      rfl
    have same : ((w.pipes.set p { w.pipes.get p with queue := rest }).get p).destination =
        (w.pipes.get p).destination := by
      rw [Table.get_set, if_pos rfl]
    have wrote := ensures_writeTo_segment reacts valid held piece (w.pipes.get p).destination room
    refine ensures_iff_upholds.1 ((Ensures.here ⟨set_pipe taken_out, same⟩ wrote).post_imp ?_)
    rintro outflow w ⟨h, left⟩
    refine ⟨fun cleaned => ?_, fun _ => set_pipe ?_⟩
    · cases h.2.intact.symm.trans cleaned
    · exact h.2.set_queue rfl (h.2.queue.pushFront left.1 left.2) (Queue.toList_pushFront _ left.1)
  mark _ h := set_pipe (h.2.of_same rfl rfl rfl rfl)

variable [Transform τ] [Transform.Proper τ]

omit reacts in
/-- A call of the transform is in the books once it is on record. -/
theorem keeps_transformOnce :
    Keeps (Balanced (τ := τ) (ω := ω) p R flight) (Pipe.transformOnce p) := by
  refine .pointwise fun w h => Pipe.ensures_transformOnce h.2.source h.2.queue ?_ h
  intro answer used pushed advances _
  have balance := h.2.advance advances
  rw [← advances.ledger] at balance
  exact set_pipe (w := { w with
    journal := ((w.pipes.get p).advance p).events ++ w.journal }) balance

theorem keeps_operate : Keeps (Balanced p R (some [])) (Pipe.operate o p) := by
  have drains : Keeps (Balanced p R (some [])) (Pipe.drain o p) :=
    ensures_iff_upholds.2 (unloads reacts).drain
  have marks (kind : ErrorKind) : Keeps (Balanced (τ := τ) (ω := ω) p R (some []))
      (modifyPipe p fun pipe => { pipe with failure := some kind }) :=
    ensures_modifyPipe fun w h => set_pipe (h.2.of_same rfl rfl rfl rfl)
  exact steady.hosts.operate
    (steady.hosts.settle (fun _ => ensures_throw _) drains keeps_transformOnce _)
    (steady.hosts.fail marks (fun _ _ announces => keeps_note announces.isNote) (reacts _))

/-- A run keeps the balance, also one that is started while another is in progress: it finds the
pipe operating and leaves the bytes that are on their way alone. -/
theorem keeps_run : Keeps (Balanced p R flight) (Pipe.run o p) := by
  refine steady.keeps_during (.pointwise fun w h => .at_getPipe ?_) p
  have operating := h.2.operating
  cases flight with
  | some bytes =>
      have busy : (w.pipes.get p).operating = true := operating
      rw [if_pos busy]
      exact .here h (steady.log _)
  | none =>
      rw [if_neg (Bool.eq_false_iff.1 operating)]
      refine .at_modifyPipe (.here (set_pipe h.2.start) ?_)
      refine Ensures.bind (keeps_note trivial) fun _ => ?_
      refine Ensures.bind (keeps_operate reacts).onHalt fun _ => ?_
      refine ensures_release.bind fun made_room => ?_
      split
      · exact steady.hosts.emit (reacts none) fun _ announces => keeps_note announces.isNote
      · exact keeps_pure _

/-! ## Calls -/

/-- Bytes that come in are in the books once they are on record. -/
theorem keeps_storeFrom {source : Source (Machine τ ω)}
    (reads : ∀ wanted flight, Keeps (Balanced p R flight) (source.read wanted))
    (ends : ∀ flight, Keeps (Balanced p R flight) source.isEnded)
    (leaves : (∀ wanted, Leaves (fun w => (w.pipes.get p).source) (source.read wanted)) ∧
      Leaves (fun w => (w.pipes.get p).source) source.isEnded) :
    Keeps (Balanced p R flight) (Pipe.storeFrom o p source) := by
  refine steady.keeps_during ?_ p
  refine Ensures.bind (steady.hosts.failureCheck p) fun failed => ?_
  cases failed with
  | error e => exact keeps_pure _
  | ok =>
      refine .pointwise fun w h => .at_getPipe ?_
      have read := Ring.ensures_storeFrom
        (fun wanted => (leaves.1 wanted).keeps_and (reads wanted flight) (w.pipes.get p).source)
        (leaves.2.keeps_and (ends flight) (w.pipes.get p).source) h.2.source
      refine Ensures.bind (.here ⟨h, rfl⟩ read) fun intake => ?_
      refine .pointwise fun w ⟨⟨h, same⟩, fills⟩ => .at_modifyPipe (.at_record ?_)
      rw [← same] at fills
      have balance := h.2.receive fills
      rw [← Ledger.of_received] at balance
      have received := set_pipe
        (w := { w with journal := .received p intake.moved :: w.journal }) balance
      exact .here received (steady.hosts.onIntake (keeps_run reacts) intake.result)

/-- The edge that makes a ring of the pipe writable resumes no other pipe. -/
theorem keeps_fireWritable {r : RingId} (range : R r) :
    Keeps (Balanced p R flight) (SharedRing.fireWritable o r) := by
  refine Ensures.bind (keeps_note trivial) fun _ => ?_
  refine .pointwise fun w h => .at_getShared (.here h ?_)
  apply keeps_forM
  intro observer member
  apply steady.hosts.tellWritable (reacts flight)
  rintro q rfl
  rw [h.2.alone r range q member]
  exact keeps_run reacts

/-- What a sink takes from the destination is in the books once it is on record, also if the sink
fails after that; what it takes from another ring is not in them. -/
theorem ensures_pour {r : RingId} (range : R r) {sink : Sink (Machine τ ω)}
    {unmoved : World τ ω → Prop}
    (writes : ∀ offered,
      Keeps (fun w' => Balanced p R flight w' ∧ unmoved w') (sink.write offered))
    (h : Balanced p R flight w) (first : unmoved w)
    (leaves : ∀ w', unmoved w' → (w'.rings.get r).ring = (w.rings.get r).ring) (max : Nat) :
    Ensures (· = w) (SharedRing.writeTo o r sink max) fun _ => Balanced p R flight := by
  refine .at_getRing ?_
  have wrote := Ring.ensures_writeTo
    (fun offered => (writes offered).post_imp fun _ _ h => And.intro h trivial)
    (h.2.valid r range) max
  refine Ensures.bind (.here ⟨h, first⟩ wrote) fun outflow => ?_
  refine .pointwise fun w' ⟨⟨h, same⟩, pours⟩ => .at_modifyShared (.at_record ?_)
  have written : Balanced p R flight { w' with
      rings := w'.rings.set r { w'.rings.get r with ring := outflow.ring }
      journal := .delivered r outflow.moved :: w'.journal } := by
    refine ⟨h.1, ?_⟩
    by_cases current : (w'.pipes.get p).destination = r
    · have drains := pours.drains
      rw [← leaves w' same, ← current] at drains
      have balance := h.2.deliver drains
      rw [← Ledger.of_delivered h.2.current, current] at balance
      exact balance
    · have other : (Ledger.of p w'.journal).current? ≠ some r := by
        rw [h.2.current]
        exact fun eq => current (Option.some.inj eq)
      have balance := h.2.set_other pours.drains.valid (Ne.symm current)
      rw [← Ledger.of_delivered_elsewhere other] at balance
      exact balance
  refine .here written ?_
  cases outflow.result with
  | error e => exact keeps_pure _
  | ok count => exact (closed_keeps _).perhaps (keeps_fireWritable reacts range) _ _

theorem keeps_pour {r : RingId} (range : R r) {sink : Sink (Machine τ ω)}
    (writes : ∀ offered flight, Keeps (Balanced p R flight) (sink.write offered))
    (leaves : ∀ offered, Leaves (fun w => (w.rings.get r).ring) (sink.write offered)) (max : Nat) :
    Keeps (Balanced p R flight) (SharedRing.writeTo o r sink max) :=
  .pointwise fun w h => ensures_pour reacts range
    (fun offered => (leaves offered).keeps_and (writes offered flight) (w.rings.get r).ring) h rfl
    (fun _ same => same) max

theorem keeps_writeTo {sink : Sink (Machine τ ω)}
    (writes : ∀ offered flight, Keeps (Balanced p R flight) (sink.write offered))
    (leaves : ∀ offered, Leaves (heldBy p) (sink.write offered)) (max : Nat) :
    Keeps (Balanced p R flight) (Pipe.writeTo o p sink max) := by
  refine steady.keeps_during (.pointwise fun w h => .at_getPipe ?_) p
  refine ensures_pour reacts h.2.inRange
    (fun offered => (leaves offered).keeps_and (writes offered flight) (heldBy p w)) h rfl ?_ max
  exact fun w' => ring_eq_of_heldBy

/-- A switch is in the books once it is on record and the listener moved over. -/
theorem keeps_switchTo {candidate : RingId} (range : R candidate) :
    Keeps (Balanced p R flight) (Pipe.switchTo o p candidate) := by
  refine steady.keeps_during ?_ p
  refine .pointwise fun w h => .at_getPipe (.at_getRing (.at_getRing ?_))
  split
  · exact .here h (keeps_pure _)
  · rename_i admitted
    have drained := (Pipe.switchRefusal_eq_none_iff.1 admitted).1
    have left := keeps_detach (w.pipes.get p).destination (.listener p) h rfl
    have same := ring_set_observers w.rings (w.pipes.get p).destination
      ((w.rings.get (w.pipes.get p).destination).observers.filter (· ≠ .listener p))
    have moved := left.redirected range ((congrArg Ring.used (same _)).trans drained)
      (congrArg Ring.used (same _))
    refine .at_modifyShared (.at_modifyPipe (.at_record (.at_modifyShared (.here moved ?_))))
    refine Ensures.bind (steady.log _) fun _ => ?_
    exact Ensures.bind (keeps_run reacts) fun _ => keeps_pure _

end Reacting

/-- A new pipe has nothing in its books but the ring it was made into. -/
theorem opened {d : RingId} (range : R d)
    (free : ∀ r, R r → (w.rings.get r).ring.Valid ∧ ∀ q, .listener q ∉ (w.rings.get r).observers)
    (direction : Direction) (transform : τ) (options : PipeOptions) (capacity : Nat) :
    Balanced w.pipes.next R none (w.opened direction d transform options capacity) := by
  have same := ring_set_observers w.rings d
    (enlist (w.rings.get d).observers (.listener w.pipes.next))
  refine set_pipe (w := { w with
    journal := .opened w.pipes.next d (w.rings.get d).ring.used :: w.journal
    rings := w.rings.set d { w.rings.get d with
      observers := enlist (w.rings.get d).observers (.listener w.pipes.next) } }) ?_
  change Balance w.pipes.next R none _ _ (Ledger.of _ (.opened _ d _ :: w.journal))
  rw [Ledger.of_opened]
  exact {
    inUse := Table.lt_next_set _ _ _
    inRange := range
    valid := by
      intro r inside
      rw [same]
      exact (free r inside).1
    alone := by
      intro r inside q member
      rw [Table.get_set] at member
      split at member
      · rcases mem_enlist.1 member with old | new
        · exact ((free d range).2 q old).elim
        · exact Observer.listener.inj new
      · exact ((free r inside).2 q member).elim
    operating := rfl
    source := Ring.valid_empty _ _
    intact := rfl
    queue := Queue.sound_empty
    current := rfl
    inbound := Ring.toList_empty capacity options.sourceRegion
    outbound := by
      intro fresh
      have none : (w.rings.get d).ring.used = 0 := fresh _ List.mem_cons_self
      have empty := (Ring.toList_eq_nil_iff (free d range).1).2 (beq_iff_eq.2 none)
      change ([] ++ ((w.rings.set d _).get d).ring.toList ++ []) ++ [] = []
      rw [same, empty]
      rfl }

theorem ensures_create {d : RingId} (range : R d)
    (free : ∀ r, R r → (w.rings.get r).ring.Valid ∧ ∀ q, .listener q ∉ (w.rings.get r).observers)
    (direction : Direction) (transform : τ) (options : PipeOptions) :
    Ensures (· = w) (Pipe.create direction d transform options) fun made w' =>
      ∀ p, made = .ok p → Balanced p R none w' := by
  refine Pipe.ensures_create (fun e => nofun) ?_
  rintro capacity entry _ _ _ _ ⟨⟩
  exact (opened range free direction transform options capacity).of_note trivial

end Balanced

/-- The rules for programs in which one pipe has the rings in `R` to itself: they store into the
pipe, run it, write its rings out and switch between them. A stream does not touch the ring that it
is read into or written from at that moment. -/
def Rules.soleUser (p : PipeId) (R : RingId → Prop) : Rules τ ω where
  permits c :=
    match c with
    | .feed q source =>
      q = p ∧ (∀ wanted, Leaves (fun w => (w.pipes.get p).source) (source.read wanted)) ∧
        Leaves (fun w => (w.pipes.get p).source) source.isEnded
    | .run q => q = p
    | .empty q sink _ => q = p ∧ ∀ offered, Leaves (heldBy p) (sink.write offered)
    | .switch q candidate => q = p ∧ R candidate
    | .pour r sink _ => R r ∧ ∀ offered, Leaves (fun w => (w.rings.get r).ring) (sink.write offered)
    | _ => False
  ignores := Apart p R

/-- Permitted calls keep the balance, whatever is on its way when they are made. -/
theorem Balanced.keeps_perform [Transform τ] [Transform.Proper τ] {p : PipeId} {R : RingId → Prop}
    {o : Owner τ ω} {α : Type} {c : Call τ ω α} (permitted : (Rules.soleUser p R).permits c)
    (reads : ∀ source, c.source? = some source →
      ∀ wanted flight, Keeps (Balanced p R flight) (source.read wanted))
    (ended : ∀ source, c.source? = some source →
      ∀ flight, Keeps (Balanced p R flight) source.isEnded)
    (writes : ∀ sink, c.sink? = some sink →
      ∀ offered flight, Keeps (Balanced p R flight) (sink.write offered))
    (reacts : ∀ flight handler edge, Keeps (Balanced p R flight) (o.react handler edge))
    (flight : Option Bytes) : Keeps (Balanced p R flight) (c.perform o) := by
  cases c with
  | feed q source =>
      obtain ⟨rfl, leaves⟩ := permitted
      exact keeps_storeFrom reacts (reads source rfl) (ended source rfl) leaves
  | run q =>
      obtain rfl := permitted
      exact keeps_run reacts
  | empty q sink max =>
      obtain ⟨rfl, leaves⟩ := permitted
      exact keeps_writeTo reacts (writes sink rfl) leaves max
  | switch q candidate =>
      obtain ⟨rfl, range⟩ := permitted
      exact keeps_switchTo reacts range
  | pour r sink max =>
      obtain ⟨range, leaves⟩ := permitted
      exact keeps_pour reacts range (writes sink rfl) leaves max
  | clear q => exact permitted.elim
  | clean q => exact permitted.elim
  | store r data => exact permitted.elim
  | fill r source => exact permitted.elim

/-- Between the calls of any program that has a pipe to itself, the bytes that sinks took from its
destinations, then the content of the destination, then the waiting segments are what the transform
pushed, in order; and the bytes that the transform has used, then the content of the source, are
what came in. Rings that did not start empty would put bytes of their own between these. -/
theorem bytes_conserved [Transform τ] [Transform.Proper τ] {R : RingId → Prop} {d : RingId}
    {direction : Direction} {transform : τ} {options : PipeOptions} {w₀ w₁ w₂ : World τ ω}
    {p : PipeId} {α : Type} {m : Machine τ ω α} {a : α}
    (free : ∀ r, R r →
      (w₀.rings.get r).ring.Valid ∧ ∀ q, .listener q ∉ (w₀.rings.get r).observers)
    (range : R d) (made : Pipe.create direction d transform options w₀ = .ok (.ok p) w₁)
    (conduct : Conduct (Rules.soleUser p R) m) (ran : m w₁ = .ok a w₂) :
    let pipe := w₂.pipes.get p
    let ledger := Ledger.of p w₂.journal
    (ledger.IsFresh →
      ledger.accepted ++ (w₂.rings.get pipe.destination).ring.toList ++ pipe.queue.toList =
        ledger.pushed) ∧
      ledger.consumed ++ pipe.source.toList = ledger.received := by
  have start : Balanced p R none w₁ :=
    Balanced.ensures_create range free direction transform options rfl made p rfl
  have aside {β : Type} {m : Machine τ ω β} (apart : Apart p R m) (flight : Option Bytes) :
      Keeps (Balanced p R flight) m :=
    fun _ _ _ h ran => h.untouched (apart h.1 h.2.inUse h.2.inRange ran)
  have keeps : ∀ flight, Keeps (Balanced p R flight) m :=
    conduct.keeps aside fun permitted reads ended writes reacts =>
      Balanced.keeps_perform permitted reads ended writes reacts
  have balance := (keeps none start ran).2
  refine ⟨fun fresh => ?_, balance.inbound⟩
  have outbound := balance.outbound fresh
  rw [Option.getD_none, List.append_nil] at outbound
  exact outbound

namespace Relay

/-- A handler that writes the destination out as soon as there is something in it, from inside the
edge that says so. -/
def react (o : Owner Codec Unit) (_ : HandlerId) : Edge → Machine Codec Unit Unit
  | .readable => do
    let _ ← Pipe.writeTo o 0 Sink.void 5
  | _ => pure ()

/-- A world with one ring of two bytes, which the handler watches. -/
def world : World Codec Unit := ⟨⟨[⟨.empty 2 .heap, [.handler 0]⟩]⟩, .empty, [], ()⟩

/-- A source that has three bytes ready whenever it is read. -/
def source : Source (Machine Codec Unit) where
  read wanted := pure (.ok ([1, 2, 3].take wanted))
  isEnded := pure false

/-- Makes a pipe that copies into the ring. -/
def make : Machine Codec Unit (Except Error PipeId) :=
  Pipe.create .wrap 0 (.identity .whole) { PipeOptions.standard with sourceCapacity := some 3 }

/-- Stores into the pipe; the handler empties the ring twice while the run drains one segment. -/
def run : Machine Codec Unit (Except Error Stored) :=
  Pipe.storeFrom (Owner.nest 8 react 2) 0 source

theorem conduct_run : Conduct (Rules.soleUser 0 (· = 0)) run := by
  refine .feed 0 ?_ ⟨rfl, fun _ => leaves_pure _ _, leaves_pure _ _⟩ (fun _ => .gives _) (.gives _)
  refine conduct_nest (fun o reacts handler edge => ?_) 2
  cases edge with
  | readable =>
      refine .andThen ?_ fun _ => .gives _
      exact .empty 0 reacts ⟨rfl, fun _ => leaves_pure _ _⟩ fun _ => .gives _
  | writable => exact .gives _
  | error e => exact .gives _

end Relay

/-- Three bytes go through a ring of two, and the handler that makes room for the last one runs
while that byte is on its way. -/
theorem bytes_conserved_relay :
    ∃ w₁ a w₂, Relay.make Relay.world = .ok (.ok 0) w₁ ∧ Relay.run w₁ = .ok a w₂ ∧
      (Ledger.of 0 w₂.journal).pushed = [1, 2, 3] ∧
      (Ledger.of 0 w₂.journal).accepted ++
        (w₂.rings.get (w₂.pipes.get 0).destination).ring.toList ++ (w₂.pipes.get 0).queue.toList =
          [1, 2, 3] := by
  have free : ∀ r, r = 0 → (Relay.world.rings.get r).ring.Valid ∧
      ∀ q, .listener q ∉ (Relay.world.rings.get r).observers := by
    rintro _ rfl
    refine ⟨Ring.valid_empty 2 .heap, fun q member => ?_⟩
    cases List.mem_singleton.1 member
  have fresh : Relay.make.ends Relay.world fun made w₁ => made.toOption = some 0 &&
      Relay.run.ends w₁ fun _ w₂ => (Ledger.of 0 w₂.journal).IsFresh ∧
        (Ledger.of 0 w₂.journal).pushed = [1, 2, 3] := by decide +kernel
  obtain ⟨made, w₁, make, fresh⟩ := ends_iff.1 fresh
  obtain ⟨first, fresh⟩ := Bool.and_eq_true_iff.1 fresh
  obtain rfl := eq_ok_of_toOption (of_decide_eq_true first)
  obtain ⟨a, w₂, run, fresh⟩ := ends_iff.1 fresh
  obtain ⟨fresh, pushed⟩ := of_decide_eq_true fresh
  have conserved := bytes_conserved free rfl make Relay.conduct_run run
  exact ⟨w₁, a, w₂, make, run, pushed, (conserved.1 fresh).trans pushed⟩

end ByteFlow
