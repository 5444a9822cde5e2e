/-
# Schedules

The owner of a pipe stores into it, runs it and writes its destination out, in any order. If the
pipe is on its course, and streams and handlers are well behaved, each of these calls comes to its
end and leaves the pipe at rest on its course, with the bytes that were moved in its books, and
leaves pipes with other destinations alone. So several pipes stay on their courses under any
schedule of such calls.
-/

import ByteFlow.Proofs.Company

namespace ByteFlow

open Machine

variable {τ ω : Type}

namespace Course

/-- The course that a pipe begins that is made into `ring`. -/
def new (F : Format) (transform : τ) (destination : RingId) (options : PipeOptions) (ring : Ring) :
    Course τ where
  format := F
  transform := transform
  destination := destination
  ceiling := options.ceiling
  room := options.sourceCapacity.getD ring.capacity
  size := ring.capacity
  held := ring.toList
  handlers := []

variable {c : Course τ} {got gave : Bytes} {pipe : Pipe τ} {ring : Ring} {ledger : Ledger}

/-- The pipe listens to its destination, and is the only one that does. -/
structure Listens (c : Course τ) (p : PipeId) (w : World τ ω) : Prop where
  listens : .listener p ∈ (w.rings.get c.destination).observers
  alone : ∀ q, .listener q ∈ (w.rings.get c.destination).observers → q = p

/-- The company of handlers that take nothing, so that the destination fills up. -/
def Company.passive (fits : Nat → Prop) (quiet : Pipe τ → Prop)
    (quiet_of_same : ∀ pipe pipe', pipe'.source = pipe.source → pipe'.queue = pipe.queue →
      pipe'.options = pipe.options → quiet pipe → quiet pipe') : Company τ where
  also waiting _ := fits waiting
  quiet := quiet
  left weight _ ring := weight + ring.free
  quiet_of_same := quiet_of_same

/-- The company of handlers that take nothing, of which nothing more is known. -/
def plain (c : Course τ) : Company τ :=
  .passive (fun _ => True) c.format.Quiet Format.Quiet.of_same

/-- No run is in progress, and nothing is left to do for one. -/
abbrev Rests (c : Course τ) := c.plain.Rests c

/-- Passes enough for a run are granted. -/
def Roomy (c : Course τ) (o : Owner τ ω) : Prop := c.room + c.size + 2 ≤ o.passes

variable [Inhabited τ] [Transform τ] [Transform.Proper τ] {o : Owner τ ω} {p : PipeId}
  {before : World τ ω}

omit [Transform τ] [Transform.Proper τ] in
theorem secures_store {d : RingId} (passive : o.Passive) (data : Bytes) :
    Secures (Stands p d before.scene pipe ring ledger) (SharedRing.store o d data) fun answer w =>
      answer = (ring.store data).2 ∧ Stands p d before.scene pipe (ring.store data).1 ledger w := by
  refine Stands.at_updateRing ?_
  dsimp only
  cases (ring.store data).2 with
  | error e => exact upholds_pure fun w stands => ⟨rfl, stands⟩
  | ok count =>
      dsimp only
      split
      · have quiet := discreetTo_true.2 (hosts_discreet.fireReadable passive d)
        refine Stands.at_discreet quiet fun _ => ?_
        exact upholds_pure fun w stands => ⟨rfl, stands⟩
      · exact upholds_pure fun w stands => ⟨rfl, stands⟩

omit [Transform.Proper τ] in
/-- In the company of passive handlers it is the destination that ends a run: each byte that goes
there takes up free space. -/
theorem Company.lawful_passive {fits : Nat → Prop} {quiet : Pipe τ → Prop} {quiet_of_same}
    (passive : o.Passive) (codes : c.format.Codes c.transform) (roomy : c.Roomy o)
    (mono : ∀ {waiting waiting'}, fits waiting → waiting' ≤ waiting → fits waiting')
    (advances : ∀ {got gave pipe ring ledger}, c.Runs got gave pipe ring ledger →
      fits pipe.queue.bytes → pipe.isReady → fits (pipe.advance p).pipe.queue.bytes)
    (unready : ∀ {pipe : Pipe τ}, pipe.isReady = false → quiet pipe)
    (idles : ∀ {got gave pipe ring ledger}, c.Runs got gave pipe ring ledger →
      fits pipe.queue.bytes → pipe.isReady → (pipe.advance p).outcome = .ok (.ok false) →
      c.format.Quiet (pipe.advance p).pipe → quiet (pipe.advance p).pipe) :
    (Company.passive fits quiet quiet_of_same).Lawful c o p before.scene where
  codes := codes
  mono := mono
  tells edge _ _ := Stands.of_discreet (discreetTo_true.2
    (hosts_discreet.emit passive fun _ announces =>
      discreetTo_true.1 (discreetTo_note announces.isNote)))
  lands {pipe ring ledger waiting data} works also some short := by
    have stored : (ring.store data).2 = .ok data.length := by
      rw [Ring.store, if_neg (Bool.eq_false_iff.1 works.usable.2)]
      exact congrArg Except.ok (Nat.min_eq_left short)
    have fills := Ring.fills_store works.usable.1 data
    rw [stored, Ring.countOf, List.take_length] at fills
    refine (secures_store passive data).of_imp (fun _ => id) ?_
    rintro answer w ⟨rfl, stands⟩
    refine ⟨stored, [], _, ⟨fills.passes (.refl fills.valid), id, ?_⟩, ?_⟩
    · intro weight waiting _ _
      have lost := fills.free_eq works.usable.1
      change weight + _ + data.length ≤ weight + _
      omega
    · rw [ledger.accept_nil]
      exact stands
  advances runs _ also ready _ := advances runs also ready
  unready := unready
  idles := idles
  lighter less _ _ := Nat.add_lt_add_right less _
  same _ _ le := Nat.add_le_add_right le _
  enough {weight waiting ring} _ le valid size := by
    have inside := valid.used_le
    change weight + ring.free < _
    unfold Roomy at roomy
    unfold Ring.free
    omega

omit [Transform.Proper τ] in
theorem lawful_plain (passive : o.Passive) (codes : c.format.Codes c.transform)
    (roomy : c.Roomy o) : c.plain.Lawful c o p before.scene :=
  Company.lawful_passive passive codes roomy (fun _ _ => trivial) (fun _ _ _ => trivial)
    (fun unready ready => by rw [unready] at ready; cases ready) fun _ _ _ _ quiet => quiet

omit [Transform τ] [Transform.Proper τ] in
/-- A tame sink takes from the destination of the pipe what it takes. -/
theorem secures_outflow {d : RingId} {sink : Sink (Machine τ ω)} (tame : sink.Tame)
    {answers : Bytes → Except Error Nat → Prop}
    (writes : ∀ offered, Ensures (fun _ => True) (sink.write offered) fun answer _ =>
      answers offered answer) (usable : ring.Valid ∧ ring.cleaned = false) (max : Nat) :
    Secures (Stands p d before.scene pipe ring ledger) (ring.writeTo sink max) fun outflow w =>
      Stands p d before.scene pipe ring ledger w ∧ ring.Drains outflow.moved outflow.ring ∧
        outflow.result = .ok outflow.moved.length ∧
        (outflow.moved.length = min max ring.used ∨
          ∃ offered answer, answers offered answer ∧ Ring.Short offered answer) := by
  have discreet : Discreet (ring.writeTo sink max) :=
    Ring.closed_writeTo closed_discreet tame.write _ _
  have both (offered : Bytes) : Ensures (fun _ : World τ ω => True) (sink.write offered)
      fun answer _ => True ∧ answers offered answer ∧ ∃ count, answer = .ok count :=
    fun _ _ _ _ ran => ⟨trivial, writes offered trivial ran, tame.willing offered trivial ran⟩
  have pours := Ring.ensures_writeTo both usable.1 max
  refine ((Stands.of_discreet (discreetTo_true.2 discreet)).and_ensures
    (pours.pre_imp fun _ _ => trivial)).of_imp (fun _ => id) ?_
  intro outflow w ⟨stands, _, pours⟩
  refine ⟨stands, pours.drains, ?_, (pours.far usable.2).imp_right ?_⟩
  · cases result : outflow.result with
    | error e =>
        rcases pours.failed e result with closed | ⟨offered, _, count, impossible⟩
        · rw [usable.2] at closed
          cases closed
        · cases impossible
    | ok count => rw [pours.counted count result]
  · exact fun ⟨offered, answer, ⟨answered, _⟩, short⟩ => ⟨offered, answer, answered, short⟩

namespace Company

section Calls

variable {k : Company τ} (lawful : k.Lawful c o p before.scene)

include lawful

/-- Once bytes were taken, the pipe runs. -/
theorem secures_run_more :
    Secures (Finds p c.destination before.scene fun pipe ring ledger =>
        ∃ more, k.Waits c got (gave ++ more) pipe ring ledger) (Pipe.run o p)
      fun _ => Finds p c.destination before.scene fun pipe ring ledger =>
        ∃ more, k.Rests c got (gave ++ more) pipe ring ledger := by
  refine (Finds.secures_exists fun _ => secures_run lawful).of_imp (fun _ => id) ?_
  refine fun _ w found => found.imp fun pipe ring ledger ⟨more, more', rests⟩ => ⟨more ++ more', ?_⟩
  rw [← List.append_assoc]
  exact rests

variable (passive : o.Passive)
  (indifferent : ∀ {waiting ring ring'}, k.also waiting ring → k.also waiting ring')

include passive

/-- When the destination turns writable, the pipe runs. -/
theorem secures_fireWritable (listens : c.Listens p before) :
    Secures (Finds p c.destination before.scene (k.Waits c got gave))
      (SharedRing.fireWritable o c.destination)
      fun _ => Finds p c.destination before.scene fun pipe ring ledger =>
        ∃ more, k.Rests c got (gave ++ more) pipe ring ledger := by
  let waits := Finds p c.destination before.scene fun pipe ring ledger =>
    ∃ more, k.Waits c got (gave ++ more) pipe ring ledger
  let rests := Finds p c.destination before.scene fun pipe ring ledger =>
    ∃ more, k.Rests c got (gave ++ more) pipe ring ledger
  have runs : Secures waits (Pipe.listenWritable o p) fun _ => rests := by
    refine Finds.secures fun pipe ring ledger ⟨more, holds⟩ => Stands.at_getPipe ?_
    have alive : pipe.isAlive = true := by
      rw [Pipe.isAlive, holds.alive, Bool.true_or]
    rw [alive, if_pos rfl]
    exact (secures_run_more lawful).of_imp (fun w stands => ⟨_, _, _, stands, more, holds⟩)
      fun _ _ => id
  have weaken (w : World τ ω) (h : rests w) : waits w := by
    refine h.imp fun _ _ _ holds => ?_
    obtain ⟨more, rests⟩ := holds
    exact ⟨more, rests.toWaits⟩
  have told (handler : HandlerId) : Discreet (tell o (.ring c.destination) .writable handler) :=
    hosts_discreet.tell passive (discreetTo_true.1 (discreetTo_note trivial))
  refine Upholds.bind (Finds.of_discreet (discreetTo_note trivial)) fun _ => ?_
  refine Finds.secures fun pipe ring ledger holds => Stands.at_getShared ?_
  have start (w : World τ ω) (stands : Stands p c.destination before.scene pipe ring ledger w) :
      waits w := by
    refine ⟨_, _, _, stands, [], ?_⟩
    rw [List.append_nil]
    exact holds
  refine Upholds.of_imp (secures_forM_of_mem listens.listens runs ?_ ?_) start fun _ _ => id
  · intro observer member
    cases observer with
    | listener q =>
        obtain rfl := listens.alone q member
        exact runs.of_imp (fun _ => id) fun _ => weaken
    | handler h => exact Finds.of_discreet (discreetTo_true.2 (told h))
  · intro observer member
    cases observer with
    | listener q =>
        obtain rfl := listens.alone q member
        exact runs.of_imp weaken fun _ _ => id
    | handler h => exact Finds.of_discreet (discreetTo_true.2 (told h))

include indifferent

/-- Writing out of the destination leaves the pipe at rest, with what was taken. That nothing was
taken is due to the sink, or there was nothing to take. -/
theorem secures_empty (listens : c.Listens p before) {sink : Sink (Machine τ ω)} (tame : sink.Tame)
    {answers : Bytes → Except Error Nat → Prop}
    (writes : ∀ offered, Ensures (fun _ => True) (sink.write offered) fun answer _ =>
      answers offered answer) (max : Nat) :
    Secures (Finds p c.destination before.scene (k.Rests c got gave)) (Pipe.writeTo o p sink max)
      fun answer => Finds p c.destination before.scene fun pipe ring ledger => ∃ moved more,
        answer = .ok moved.length ∧ k.Rests c got (gave ++ moved ++ more) pipe ring ledger ∧
          (moved = [] → min max ring.used = 0 ∨
            ∃ offered answer, answers offered answer ∧ Ring.Short offered answer) := by
  refine Finds.during ?_ ?_ ?_ ?_
  · refine Finds.secures fun pipe ring ledger rests => Stands.at_getPipe ?_
    rw [rests.destination]
    refine Stands.at_getRing ?_
    refine Upholds.bind (secures_outflow tame writes rests.usable max) fun outflow => ?_
    refine .pointwise fun w ⟨stands, drains, result, far⟩ => .here stands ?_
    have own (journal : List Event) (eq : Ledger.of p journal = ledger) :
        Ledger.of p (.delivered c.destination outflow.moved :: journal) =
          { ledger with accepted := ledger.accepted ++ outflow.moved } := by
      rw [← eq] at rests ⊢
      exact Ledger.of_delivered rests.current _
    have holds := rests.toHolds.deliver drains
    have also (intact : pipe.failure = none) : k.also pipe.queue.bytes outflow.ring :=
      indifferent (rests.also intact)
    have far (nothing : outflow.moved = []) : min max outflow.ring.used = 0 ∨
        ∃ offered answer, answers offered answer ∧ Ring.Short offered answer := by
      have total := drains.length_add_used rests.usable.1
      rw [nothing, List.length_nil, Nat.zero_add] at total
      rw [nothing, ← total] at far
      exact far.imp_left Eq.symm
    rw [result]
    refine Stands.at_setRing (Stands.at_record own (fun _ => trivial)
      (fun q other journal elsewhere => Ledger.of_delivered_elsewhere elsewhere _) ?_)
    dsimp only
    split
    · rename_i fires
      refine Upholds.bind ((secures_fireWritable lawful passive listens).of_imp
        (fun w stands => ⟨_, _, _, stands, holds, rests.operating, also⟩) fun _ _ => id) fun _ => ?_
      refine upholds_pure fun w found => found.imp fun pipe ring ledger ⟨more, rests⟩ => ?_
      refine ⟨outflow.moved, more, rfl, rests, fun nothing => ?_⟩
      exact (List.length_pos_iff.1 fires.2 nothing).elim
    · rename_i stays
      refine upholds_pure fun w stands => ⟨_, _, _, stands, outflow.moved, [], rfl, ?_, far⟩
      rw [List.append_nil]
      refine ⟨⟨holds, also, fun intact => ?_⟩, rests.operating⟩
      obtain ⟨spent, quiet⟩ := rests.settled intact
      refine ⟨spent.imp_right fun full => ?_, quiet⟩
      have nothing := Nat.eq_zero_of_not_pos fun some => stays ⟨full, some⟩
      rw [drains.free_eq rests.usable.1, full, nothing]
  · exact Rests.uncounted
  · exact fun _ pipe ring ledger calls ⟨moved, more, answered, h, far⟩ =>
      ⟨moved, more, answered, h.uncounted calls, far⟩
  · exact fun _ pipe ring ledger ⟨moved, more, _, h, _⟩ => h.alive

end Calls

end Company

omit [Inhabited τ] [Transform τ] [Transform.Proper τ] in
/-- A new pipe has nothing to do. -/
theorem Company.Rests.new {k : Company τ} {F : Format} {transform : τ} {d : RingId}
    {options : PipeOptions} (usable : ring.Valid ∧ ring.cleaned = false)
    (movable : ∀ {rest : Bytes}, F.incomplete rest → options.sourceRegion = .heap)
    (also : k.also 0 ring) (unready : ∀ {pipe}, pipe.isReady = false → k.quiet pipe)
    {direction : Direction} :
    k.Rests (Course.new F transform d options ring) [] []
      (.new direction options
        (.empty (options.sourceCapacity.getD ring.capacity) options.sourceRegion) transform d)
      ring { Ledger.empty with destinations := [(d, ring.used)] } := by
  have holdsNothing : (Ring.empty (options.sourceCapacity.getD ring.capacity)
      options.sourceRegion).toList = [] := Ring.toList_empty _ _
  exact ⟨⟨⟨rfl, rfl, rfl, rfl, rfl, ⟨Ring.valid_empty _ _, rfl, movable, rfl⟩, Queue.sound_empty,
    usable, rfl, rfl, rfl, rfl, holdsNothing, rfl, .nil⟩, fun _ => also,
    fun _ => ⟨.inl rfl, unready rfl⟩⟩, rfl⟩

omit [Inhabited τ] [Transform τ] [Transform.Proper τ] in
/-- Who is told of the edges of a pipe that is at rest makes no difference. -/
theorem Company.Rests.withHandlers {k : Company τ} (h : k.Rests c got gave pipe ring ledger)
    (handlers : List HandlerId) :
    k.Rests { c with handlers } got gave { pipe with handlers } ring ledger where
  transform := h.transform
  ceiling := h.ceiling
  destination := h.destination
  alive := h.alive
  handlers := rfl
  source := h.source
  queue := h.queue
  usable := h.usable
  size := h.size
  current := h.current
  received := h.received
  accepted := h.accepted
  inbound := h.inbound
  outbound := h.outbound
  standing := h.standing
  operating := h.operating
  also := h.also
  settled intact :=
    ⟨(h.settled intact).1, k.quiet_of_same pipe _ rfl rfl rfl (h.settled intact).2⟩

omit [Inhabited τ] [Transform τ] [Transform.Proper τ] in
/-- Once the destination of a pipe that has not failed is empty, all that was pushed is delivered.
What is left in the source is an incomplete unit, for the rest of which there is room. -/
theorem Company.Rests.delivered {k : Company τ} (h : k.Rests c got gave pipe ring ledger)
    (same : k.quiet = c.format.Quiet) (intact : pipe.failure = none) (sized : 0 < c.size)
    (room : 0 < c.room) (ceiling : 0 < c.ceiling) (drained : ring.used = 0) :
    pipe.queue.isEmpty ∧ gave = c.held ++ ledger.pushed ∧ pipe.source.free ≠ 0 ∧
      (pipe.source.toList = [] ∨ c.format.incomplete pipe.source.toList) := by
  obtain ⟨spent, quiet⟩ := h.settled intact
  rw [same] at quiet
  have space : ring.free ≠ 0 := by
    have size := h.size
    unfold Ring.free
    omega
  have waiting : pipe.queue.isEmpty := spent.resolve_right space
  have nothing : ring.toList = [] :=
    (Ring.toList_eq_nil_iff h.usable.1).2 (beq_iff_eq.2 drained)
  have queue : pipe.queue.toList = [] := by
    rw [Queue.toList, Queue.isEmpty_iff_segments_eq_nil.1 waiting]
    rfl
  have outbound := h.outbound
  rw [nothing, queue, List.append_nil, List.append_nil] at outbound
  refine ⟨waiting, outbound, ?_⟩
  by_cases none : pipe.source.toList = []
  · have used := h.source.valid.length_toList
    have capacity := h.source.size
    rw [none, List.length_nil] at used
    refine ⟨?_, .inl none⟩
    unfold Ring.free
    omega
  · have low := (Queue.isEmpty_iff_bytes_eq_zero h.queue.toValid).1 waiting
    rcases quiet (h.isReady none (low ▸ ceiling)) with ⟨held, _⟩ | ⟨incomplete, free⟩
    · rw [waiting] at held
      cases held
    · exact ⟨free, .inr incomplete⟩

/-! ## From call to call -/

namespace Company

/-- The pipe is at rest on its course, and alone with its destination. -/
structure At (k : Company τ) (c : Course τ) (p : PipeId) (got gave : Bytes) (w : World τ ω) : Prop
    extends c.Listens p w where
  rests :
    k.Rests c got gave (w.pipes.get p) (w.rings.get c.destination).ring (Ledger.of p w.journal)

namespace At

variable {k : Company τ} {w w' : World τ ω}

omit [Transform τ] [Transform.Proper τ] in
theorem finds (h : k.At c p got gave w) : Finds p c.destination w.scene (k.Rests c got gave) w :=
  ⟨_, _, _, .start p c.destination w, h.rests⟩

omit [Transform τ] [Transform.Proper τ] in
theorem of_stands {got' gave' : Bytes} (h : k.At c p got gave w)
    (stands : Stands p c.destination w.scene pipe ring ledger w')
    (rests : k.Rests c got' gave' pipe ring ledger) : k.At c p got' gave' w' where
  listens := by
    rw [stands.ring]
    exact h.listens
  alone := by
    rw [stands.ring]
    exact h.alone
  rests := by
    rw [stands.pipe, stands.ring, stands.ledger]
    exact rests

omit [Transform τ] [Transform.Proper τ] in
/-- What is done with a pipe leaves a pipe with another destination where it is. -/
theorem elsewhere {q : PipeId} {d : RingId} (h : k.At c p got gave w)
    (stands : Stands q d w.scene pipe ring ledger w') (other : q ≠ p)
    (otherRing : d ≠ c.destination) :
    k.At c p got gave w' where
  listens := by
    rw [stands.otherRing _ otherRing]
    exact h.listens
  alone := by
    rw [stands.otherRing _ otherRing]
    exact h.alone
  rests := by
    have current : (Ledger.of p w.journal).current? ≠ some d := by
      rw [h.rests.current]
      exact fun same => otherRing (Option.some.inj same).symm
    rw [stands.otherPipe p other, stands.otherRing _ otherRing,
      stands.otherLedger p other current]
    exact h.rests

omit [Transform τ] [Transform.Proper τ] in
/-- A handler is added to those who are told of the edges of the pipe. -/
theorem addHandler (h : k.At c p got gave w) (handler : HandlerId) :
    ∃ w', Pipe.addHandler p handler w = .ok () w' ∧
      k.At { c with handlers := enlist c.handlers handler } p got gave w' := by
  refine ⟨_, rfl, ⟨h.listens, h.alone⟩, ?_⟩
  have same := h.rests.handlers
  let pipe := { w.pipes.get p with handlers := enlist (w.pipes.get p).handlers handler }
  have told : (w.pipes.set p pipe).get p = { w.pipes.get p with
      handlers := enlist c.handlers handler } :=
    (Table.get_set _ _ _ _).trans ((if_pos rfl).trans (same ▸ rfl))
  change k.Rests _ got gave ((w.pipes.set p pipe).get p) _ _
  rw [told]
  exact h.rests.withHandlers _

omit [Transform τ] [Transform.Proper τ] in
theorem addHandlers (h : k.At c p got gave w) (handlers : List HandlerId) :
    ∃ told w', handlers.forM (Pipe.addHandler p) w = .ok () w' ∧
      k.At { c with handlers := told } p got gave w' := by
  induction handlers generalizing c w with
  | nil => exact ⟨c.handlers, w, rfl, h⟩
  | cons handler handlers ih =>
      obtain ⟨between, first, after⟩ := h.addHandler handler
      obtain ⟨told, w', rest, last⟩ := ih after
      exact ⟨told, w', (bind_of_ok first).trans rest, last⟩

end At

end Company

/-- The pipe is at rest on its course, and alone with its destination. -/
abbrev At (c : Course τ) (p : PipeId) (got gave : Bytes) (w : World τ ω) : Prop :=
  c.plain.At c p got gave w

end Course

/-- A call of a pipe that stores from a tame source, writes out into a tame sink, or just runs the
pipe. -/
def Call.Tame {α : Type} [Inhabited τ] (p : PipeId) : Call τ ω α → Prop
  | .feed q source => q = p ∧ source.Tame
  | .run q => q = p
  | .empty q sink _ => q = p ∧ sink.Tame
  | _ => False

/-- A call of a pipe like a tame one, except that a source may fail. -/
def Call.Calm {α : Type} [Inhabited τ] (p : PipeId) : Call τ ω α → Prop
  | .feed q source => q = p ∧ source.Discreet
  | .run q => q = p
  | .empty q sink _ => q = p ∧ sink.Tame
  | _ => False

theorem Call.Tame.calm {α : Type} [Inhabited τ] {p : PipeId} {call : Call τ ω α}
    (tame : call.Tame p) : call.Calm p := by
  cases call with
  | feed q source => exact tame.imp_right Source.Tame.discreet
  | run q => exact tame
  | empty q sink max => exact tame
  | _ => exact tame.elim

/-- Makes calls one after the other, whatever they give back. -/
def Call.performAll [Inhabited τ] [Transform τ] (o : Owner τ ω)
    (calls : List ((α : Type) × Call τ ω α)) : Machine τ ω Unit :=
  calls.forM fun call => do
    let _ ← call.2.perform o

namespace Course

variable [Inhabited τ] [Transform τ] [Transform.Proper τ] {c : Course τ} {got gave : Bytes}
  {o : Owner τ ω} {p : PipeId} {w : World τ ω}

namespace Company

/-- In lawful company, whatever the world, and if it makes no difference to the company what is in
the destination, calls leave a pipe at rest also after its source may have failed. -/
structure Steady (k : Company τ) (c : Course τ) (o : Owner τ ω) (p : PipeId) (failing : Prop) :
    Prop where
  lawful : ∀ before : World τ ω, k.Lawful c o p before.scene
  passive : o.Passive
  indifferent : ∀ {waiting ring ring'}, k.also waiting ring → k.also waiting ring'
  resumes : failing → ∀ {got gave pipe ring ledger},
    Interrupted (k.Rests c got gave) pipe ring ledger → ∃ got, k.Rests c got gave pipe ring ledger

variable {k : Company τ} {failing : Prop}

/-- Every call of the pipe comes to its end, leaves the pipe at rest, and leaves alone what is not
the pipe's. -/
theorem At.perform (steady : k.Steady c o p failing) (h : k.At c p got gave w) {α : Type}
    {call : Call τ ω α} (calm : call.Calm p) (willing : failing ∨ call.Tame p) :
    ∃ answer w' got' gave' pipe ring ledger, call.perform o w = .ok answer w' ∧
      k.At c p got' gave' w' ∧ Stands p c.destination w.scene pipe ring ledger w' := by
  have lawful := steady.lawful w
  cases call with
  | feed q source =>
      obtain ⟨rfl, discreet⟩ := calm
      obtain ⟨answer, w', ran, pipe, ring, ledger, stands, fed⟩ :=
        (secures_feed lawful Rests.toWaits Rests.uncounted discreet.discreetTo
          (willing.imp_right fun tame => tame.2.willing)).exists_ok h.finds
      refine ⟨answer, w', ?_⟩
      cases fed with
      | ran rests _ => exact ⟨_, _, pipe, ring, ledger, ran, h.of_stands stands rests, stands⟩
      | refused rests => exact ⟨_, _, pipe, ring, ledger, ran, h.of_stands stands rests, stands⟩
      | interrupted may stopped =>
          obtain ⟨got', rests⟩ := steady.resumes may stopped
          exact ⟨got', _, pipe, ring, ledger, ran, h.of_stands stands rests, stands⟩
  | run q =>
      obtain rfl := calm
      obtain ⟨answer, w', ran, pipe, ring, ledger, stands, more, rests⟩ :=
        (secures_run lawful).exists_ok (h.finds.imp fun _ _ _ rests => rests.toWaits)
      exact ⟨answer, w', _, _, pipe, ring, ledger, ran, h.of_stands stands rests, stands⟩
  | empty q sink max =>
      obtain ⟨rfl, tame⟩ := calm
      obtain ⟨answer, w', ran, pipe, ring, ledger, stands, moved, more, _, rests, _⟩ :=
        (secures_empty lawful steady.passive steady.indifferent h.toListens tame tame.willing
          max).exists_ok h.finds
      exact ⟨answer, w', _, _, pipe, ring, ledger, ran, h.of_stands stands rests, stands⟩
  | _ => exact calm.elim

/-- Several pipes with destinations of their own stay on their courses, whatever the schedule. -/
theorem At.performAll {ι : Type} {companies : ι → Company τ} {courses : ι → Course τ}
    {pipes : ι → PipeId} (apart : ∀ i j, i ≠ j →
      pipes i ≠ pipes j ∧ (courses i).destination ≠ (courses j).destination)
    (steady : ∀ i, (companies i).Steady (courses i) o (pipes i) failing)
    (start : ∀ i, ∃ got gave, (companies i).At (courses i) (pipes i) got gave w)
    {calls : List ((α : Type) × Call τ ω α)}
    (calm : ∀ call ∈ calls, ∃ i, call.2.Calm (pipes i) ∧ (failing ∨ call.2.Tame (pipes i))) :
    ∃ w', Call.performAll o calls w = .ok () w' ∧
      ∀ i, ∃ got gave, (companies i).At (courses i) (pipes i) got gave w' := by
  induction calls generalizing w with
  | nil => exact ⟨w, rfl, start⟩
  | cons call calls ih =>
      obtain ⟨⟨i, first, willing⟩, others⟩ := List.forall_mem_cons.1 calm
      obtain ⟨got, gave, at_i⟩ := start i
      obtain ⟨answer, between, got', gave', pipe, ring, ledger, ran, after, stands⟩ :=
        at_i.perform (steady i) first willing
      have onward (j : ι) :
          ∃ got gave, (companies j).At (courses j) (pipes j) got gave between := by
        by_cases same : j = i
        · rw [same]
          exact ⟨got', gave', after⟩
        · obtain ⟨got, gave, at_j⟩ := start j
          obtain ⟨other, otherRing⟩ := apart i j (Ne.symm same)
          exact ⟨got, gave, at_j.elsewhere stands other otherRing⟩
      obtain ⟨w', rest, all⟩ := ih onward others
      have one : (do let _ ← call.2.perform o : Machine τ ω Unit) w = .ok () between :=
        bind_of_ok ran
      exact ⟨w', (bind_of_ok one).trans rest, all⟩

end Company

omit [Transform.Proper τ] in
theorem steady_plain (passive : o.Passive) (codes : c.format.Codes c.transform)
    (roomy : c.Roomy o) : c.plain.Steady c o p False where
  lawful _ := lawful_plain passive codes roomy
  passive := passive
  indifferent _ := trivial
  resumes := False.elim

/-- Several pipes with destinations of their own stay on their courses, whatever the schedule. -/
theorem At.performAll {ι : Type} {courses : ι → Course τ} {pipes : ι → PipeId}
    (apart : ∀ i j, i ≠ j →
      pipes i ≠ pipes j ∧ (courses i).destination ≠ (courses j).destination)
    (passive : o.Passive)
    (codes : ∀ i, (courses i).format.Codes (courses i).transform ∧ (courses i).Roomy o)
    (start : ∀ i, ∃ got gave, (courses i).At (pipes i) got gave w)
    {calls : List ((α : Type) × Call τ ω α)}
    (tame : ∀ call ∈ calls, ∃ i, call.2.Tame (pipes i)) :
    ∃ w', Call.performAll o calls w = .ok () w' ∧
      ∀ i, ∃ got gave, (courses i).At (pipes i) got gave w' := by
  refine Company.At.performAll apart (fun i => steady_plain passive (codes i).1 (codes i).2) start
    ?_
  intro call member
  obtain ⟨i, tame⟩ := tame call member
  exact ⟨i, tame.calm, .inr tame⟩

/-- Two pipes with destinations of their own stay on their courses, however their calls are
mixed. -/
theorem At.performAll_both {c' : Course τ} {got' gave' : Bytes} {q : PipeId} (passive : o.Passive)
    (codes : c.format.Codes c.transform ∧ c.Roomy o)
    (codes' : c'.format.Codes c'.transform ∧ c'.Roomy o) (h : c.At p got gave w)
    (h' : c'.At q got' gave' w) (other : p ≠ q) (apart : c.destination ≠ c'.destination)
    {calls : List ((α : Type) × Call τ ω α)}
    (tame : ∀ call ∈ calls, call.2.Tame p ∨ call.2.Tame q) :
    ∃ w', Call.performAll o calls w = .ok () w' ∧ (∃ got gave, c.At p got gave w') ∧
      ∃ got gave, c'.At q got gave w' := by
  let courses : Bool → Course τ := fun | false => c | true => c'
  let pipes : Bool → PipeId := fun | false => p | true => q
  have pairwise : ∀ i j, i ≠ j →
      pipes i ≠ pipes j ∧ (courses i).destination ≠ (courses j).destination := by
    intro i j distinct
    cases i <;> cases j
    · exact (distinct rfl).elim
    · exact ⟨other, apart⟩
    · exact ⟨other.symm, apart.symm⟩
    · exact (distinct rfl).elim
  have coded : ∀ i, (courses i).format.Codes (courses i).transform ∧ (courses i).Roomy o := by
    intro i
    cases i
    · exact codes
    · exact codes'
  have start : ∀ i, ∃ got gave, (courses i).At (pipes i) got gave w := by
    intro i
    cases i
    · exact ⟨got, gave, h⟩
    · exact ⟨got', gave', h'⟩
  have served : ∀ call ∈ calls, ∃ i, call.2.Tame (pipes i) :=
    fun call member => (tame call member).elim (⟨false, ·⟩) (⟨true, ·⟩)
  obtain ⟨w', ran, stay⟩ := performAll pairwise passive coded start served
  exact ⟨w', ran, stay false, stay true⟩

/-- To write the destination out again and again comes to an end if it can only ever deliver so
much, and then the destination is empty. -/
theorem At.exhaust (passive : o.Passive) (codes : c.format.Codes c.transform) (roomy : c.Roomy o)
    (h : c.At p got gave w) {sink : Sink (Machine τ ω)} (tame : sink.Tame) (greedy : sink.Greedy)
    {max : Nat} (some : 0 < max) {bound : Nat}
    (bounded : ∀ gave (w : World τ ω), c.At p got gave w → gave.length ≤ bound) :
    ∃ rounds w' gave', Pipe.exhaust o p sink max rounds w = .ok () w' ∧ c.At p got gave' w' ∧
      (w'.rings.get c.destination).ring.used = 0 := by
  -- Each round that takes something brings what was delivered closer to the bound.
  obtain ⟨left, eq⟩ : ∃ left, left = bound - gave.length := ⟨_, rfl⟩
  induction left using Nat.strongRecOn generalizing gave w with
  | ind left ih =>
      obtain ⟨answer, w', ran, pipe, ring, ledger, stands, moved, more, rfl, rests, nothing⟩ :=
        (Company.secures_empty (lawful_plain passive codes roomy) passive (fun _ => trivial)
          h.toListens tame greedy max).exists_ok h.finds
      have after := h.of_stands stands rests
      by_cases none : moved = []
      · refine ⟨1, w', _, ?_, after, ?_⟩
        · refine (bind_of_ok ran).trans ?_
          rw [none]
          rfl
        · have drained : ring.used = 0 := by
            rcases nothing none with all | ⟨offered, _, rfl, short⟩
            · omega
            · exact (Nat.lt_irrefl _ short).elim
          rw [stands.ring]
          exact drained
      · have counted := List.length_pos_iff.2 none
        have fits := bounded _ _ after
        rw [List.length_append, List.length_append] at fits
        obtain ⟨rounds, w'', gave'', rest, last, drained⟩ :=
          ih (bound - (gave ++ moved ++ more).length)
            (by rw [List.length_append, List.length_append]; omega) after rfl
        refine ⟨rounds + 1, w'', gave'', ?_, last, drained⟩
        refine (bind_of_ok ran).trans ?_
        obtain ⟨n, eq⟩ := Nat.exists_eq_succ_of_ne_zero (Nat.ne_of_gt counted)
        rw [eq]
        exact rest

/-- A pipe was made that is at the beginning of its course. The pipes that there were, and the rings
other than its destination, are what they were. -/
structure Opens (c : Course τ) (p : PipeId) (w w' : World τ ω) : Prop where
  begins : ∀ {k : Company τ}, k.also 0 (w.rings.get c.destination).ring →
    (∀ {pipe}, pipe.isReady = false → k.quiet pipe) → k.At c p [] [] w'
  observers : (w'.rings.get c.destination).observers =
    enlist (w.rings.get c.destination).observers (.listener p)
  ceiling : 0 < c.ceiling
  room : 0 < c.room
  fresh : p = w.pipes.next
  inUse : p < w'.pipes.next
  otherPipe : ∀ q, p ≠ q → w'.pipes.get q = w.pipes.get q
  otherRing : ∀ r, c.destination ≠ r → w'.rings.get r = w.rings.get r
  otherLedger : ∀ q, p ≠ q → Ledger.of q w'.journal = Ledger.of q w.journal

omit [Transform τ] [Transform.Proper τ] in
theorem Opens.start {w' : World τ ω} (h : c.Opens p w w') : c.At p [] [] w' :=
  h.begins trivial fun unready ready => by rw [unready] at ready; cases ready

omit [Transform τ] [Transform.Proper τ] in
/-- A pipe that there was before, with another destination, is where it was. -/
theorem Opens.elsewhere {c' : Course τ} {q : PipeId} {w' : World τ ω} (h : c.Opens p w w')
    (before : c'.At q got gave w) (inUse : q < w.pipes.next)
    (other : c.destination ≠ c'.destination) : c'.At q got gave w' := by
  have apart : p ≠ q := by
    rw [h.fresh]
    exact Nat.ne_of_gt inUse
  have ring := h.otherRing _ other
  refine ⟨⟨?_, ?_⟩, ?_⟩
  · rw [ring]
    exact before.listens
  · rw [ring]
    exact before.alone
  · rw [ring, h.otherPipe q apart, h.otherLedger q apart]
    exact before.rests

omit [Transform τ] [Transform.Proper τ] in
/-- A pipe that is made into a ring that no pipe listens to is at the beginning of its course. -/
theorem ensures_create {d : RingId} (F : Format)
    (usable : (w.rings.get d).ring.Valid ∧ (w.rings.get d).ring.cleaned = false)
    (free : ∀ q, .listener q ∉ (w.rings.get d).observers) (direction : Direction) (transform : τ)
    {options : PipeOptions}
    (movable : ∀ {rest : Bytes}, F.incomplete rest → options.sourceRegion = .heap) :
    Ensures (· = w) (Pipe.create direction d transform options) fun made w' =>
      ∀ p, made = .ok p → (Course.new F transform d options (w.rings.get d).ring).Opens p w w' := by
  refine Pipe.ensures_create (fun e => nofun) ?_
  rintro capacity entry validated some rfl _ ⟨⟩
  have ceiling : 0 < options.ceiling := by
    apply Nat.pos_of_ne_zero
    intro zero
    rw [PipeOptions.validate, if_pos zero] at validated
    cases validated
  let opened := w.opened direction d transform options
    (options.sourceCapacity.getD (w.rings.get d).ring.capacity)
  have observed : opened.rings.get d = { w.rings.get d with
      observers := enlist (w.rings.get d).observers (.listener w.pipes.next) } :=
    (Table.get_set _ _ _ _).trans (if_pos rfl)
  have pipe : opened.pipes.get w.pipes.next = _ := (Table.get_set _ _ _ _).trans (if_pos rfl)
  have note : Event.IsNote (.logged entry) := trivial
  exact {
    begins := by
      intro k also unready
      refine ⟨⟨?_, ?_⟩, ?_⟩
      · change _ ∈ (opened.rings.get d).observers
        rw [observed]
        exact mem_enlist.2 (.inr rfl)
      · intro q member
        change _ ∈ (opened.rings.get d).observers at member
        rw [observed] at member
        rcases mem_enlist.1 member with old | same
        · exact (free q old).elim
        · cases same
          rfl
      · change k.Rests _ [] [] (opened.pipes.get w.pipes.next) (opened.rings.get d).ring
          (Ledger.of w.pipes.next (.logged entry :: opened.journal))
        rw [pipe, observed, Ledger.of_note note]
        rw [show Ledger.of w.pipes.next opened.journal = _ from Ledger.of_opened _ _]
        exact .new usable movable also unready
    observers := congrArg SharedRing.observers observed
    ceiling := ceiling
    room := Nat.pos_of_ne_zero some
    fresh := rfl
    inUse := Table.lt_next_set _ _ _
    otherPipe := fun q other => (Table.get_set _ _ _ _).trans (if_neg other)
    otherRing := fun r other => (Table.get_set _ _ _ _).trans (if_neg other)
    otherLedger := fun q other =>
      (Ledger.of_note note).trans (Ledger.of_opened_elsewhere other _ _) }

end Course

end ByteFlow
